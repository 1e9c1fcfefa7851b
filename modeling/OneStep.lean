import OneStep.AgentSessions
import OneStep.BinlogSource
import OneStep.BlockedRetries
import OneStep.BoundedRetries
import OneStep.BufferedSends
import OneStep.ClickHouseInserts
import OneStep.CommandCommits
import OneStep.CommandExecution
import OneStep.CommandResults
import OneStep.ConnectionCounts
import OneStep.ConsoleSessions
import OneStep.CronDenotation
import OneStep.CronSearch
import OneStep.DegradedHeartbeats
import OneStep.EncodedChunks
import OneStep.EnvReferences
import OneStep.EnvelopeCodec
import OneStep.ExecutionDeadlines
import OneStep.ExecutionPages
import OneStep.ExecutionReplay
import OneStep.ExecutionWorkers
import OneStep.ExposedSeries
import OneStep.FeishuReads
import OneStep.InflightGauge
import OneStep.InsertKeys
import OneStep.IntervalElapsed
import OneStep.KafkaRedelivery
import OneStep.LoginThrottle
import OneStep.ManualRuns
import OneStep.MongoPaging
import OneStep.MongoRuns
import OneStep.OutboxDrainers
import OneStep.OverviewAgreement
import OneStep.PackagedReferences
import OneStep.QuietStatus
import OneStep.ReleasedWork
import OneStep.ReporterIdentity
import OneStep.ResolvedResources
import OneStep.ResourcePairs
import OneStep.RuntimeNotifications
import OneStep.ScheduleFireTimes
import OneStep.SecretCaptures
import OneStep.StagedFlushes
import OneStep.StateKeys
import OneStep.StoppedRetries
import OneStep.StreamDeliveries
import OneStep.TrackerCalls
import OneStep.WorkerSlots
