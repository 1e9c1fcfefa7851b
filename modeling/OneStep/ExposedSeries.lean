import OneStep.PrometheusExposition

/-!
# Faithful and monotone series

The labels of a series tell it, since labels of the user never take a reserved name, and the
text of a line tells the family and the labels. Groups of the database become series by sorting
their labels; where the stored windows of a series have one order of labels, each series comes
from one group, and its counter is the sum of its windows. Rows are only added by ingestion, so
that the sums grow, and a batch that deletes windows which counted nothing leaves them.
-/
namespace OneStep.ExposedSeries
open CanonicalJson GroupedTotals ItemLists JsonText KeyedTable LatestSelection MetricWindows
  PrometheusExposition PrometheusText ScalarTexts Transition UnambiguousTexts

section Labels

/-- Labels that `validate_labels` returns. -/
structure Accepted (labels : Labels) : Prop where
  nodup : (labels.map Prod.fst).Nodup
  named : Named labels
  unreserved : ∀ label ∈ labels, label.1 ∉ reservedLabels

variable {labels : Labels} {series : CustomSeries}

theorem accepted_change (h : Accepted labels) {key value : String}
    (hname : isLabelName key.toList = true) (hfree : key ∉ reservedLabels) :
    Accepted (change key (fun _ => value) labels) where
  nodup := nodup_change h.nodup key _
  named := by
    intro label hlabel
    rcases mem_change_const hlabel with hold | rfl
    · exact h.named label hold
    · exact hname
  unreserved := by
    intro label hlabel
    rcases mem_change_const hlabel with hold | rfl
    · exact h.unreserved label hold
    · exact hfree

theorem accepted_validateLabels {start result : Labels} (hstart : Accepted start)
    (h : validateLabels start labels = some result) : Accepted result := by
  induction labels generalizing start with
  | nil =>
    cases h
    exact hstart
  | cons label labels ih =>
    obtain ⟨rawKey,value⟩ := label
    rw [validateLabels] at h
    split at h
    · next hkey => exact ih (accepted_change hstart hkey.1 hkey.2) h
    · cases h

theorem accepted_nil : Accepted [] where
  nodup := List.nodup_nil
  named := fun _ h => absurd h List.not_mem_nil
  unreserved := fun _ h => absurd h List.not_mem_nil

theorem accepted_sortFields (h : Accepted labels) :
    Accepted (sortFields labels) where
  nodup := ((sortFields_perm labels).map Prod.fst).nodup_iff.mpr h.nodup
  named := fun label hlabel => h.named label ((sortFields_perm labels).subset hlabel)
  unreserved := fun label hlabel => h.unreserved label ((sortFields_perm labels).subset hlabel)

theorem sortFields_idem (h : Accepted labels) :
    sortFields (sortFields labels) = sortFields labels :=
  sortFields_unique (sortFields_perm labels) (accepted_sortFields h).nodup

theorem perm_of_sortFields {others : Labels} (h : sortFields labels = sortFields others) :
    labels.Perm others :=
  (sortFields_perm labels).symm.trans (h ▸ sortFields_perm others)

theorem runtimeLabels_reserved (series : TaskSeries) :
    ∀ label ∈ runtimeLabels series, label.1 ∈ reservedLabels := by
  intro label hlabel
  simp only [runtimeLabels,List.mem_cons,List.not_mem_nil,or_false] at hlabel
  rcases hlabel with rfl | rfl | rfl | rfl <;> simp [reservedLabels]

theorem reserved_named : ∀ key ∈ reservedLabels, isLabelName key.toList = true := by
  decide

theorem runtimeLabels_named (series : TaskSeries) : Named (runtimeLabels series) :=
  fun label hlabel => reserved_named _ (runtimeLabels_reserved series label hlabel)

theorem uuidText_injective {u v : UUID}
    (h : String.ofList (uuidText u) = String.ofList (uuidText v)) : u = v := by
  have hread := readUuid_uuidText u
  rw [String.ofList_injective h,readUuid_uuidText] at hread
  exact (Option.some.inj hread).symm

theorem taskSeries_eq {series series' : TaskSeries}
    (hsubset : ∀ label ∈ runtimeLabels series, label ∈ runtimeLabels series'++labels)
    (hlabels : ∀ label ∈ labels, label.1 ∉ (runtimeLabels series').map Prod.fst) :
    series = series' := by
  have hmem : ∀ label ∈ runtimeLabels series, label ∈ runtimeLabels series' := by
    intro label hlabel
    rcases List.mem_append.mp (hsubset label hlabel) with hmem | hmem
    · exact hmem
    · have hkey := hlabels label hmem
      simp only [runtimeLabels,List.mem_cons,List.not_mem_nil,or_false] at hlabel
      rcases hlabel with rfl | rfl | rfl | rfl <;> simp [runtimeLabels] at hkey
  obtain ⟨service,environment,task,instanceId⟩ := series
  obtain ⟨service',environment',task',instanceId'⟩ := series'
  have hservice := hmem ("service",service) (by simp [runtimeLabels])
  have henvironment := hmem ("environment",environment) (by simp [runtimeLabels])
  have htask := hmem ("task",task) (by simp [runtimeLabels])
  have hinstance := hmem ("instance_id",String.ofList (uuidText instanceId))
    (by simp [runtimeLabels])
  simp only [runtimeLabels,List.mem_cons,Prod.mk.injEq,List.not_mem_nil,or_false]
    at hservice henvironment htask hinstance
  simp only [true_and,String.reduceEq,false_and,or_false,false_or]
    at hservice henvironment htask hinstance
  rw [hservice,henvironment,htask,uuidText_injective hinstance]

theorem taskLabels_injective {series series' : TaskSeries}
    (h : series.labelSet = series'.labelSet) : series = series' := by
  have hsubset : ∀ label ∈ runtimeLabels series, label ∈ runtimeLabels series'++[] := by
    intro label hlabel
    rw [List.append_nil]
    exact (perm_of_sortFields h).subset hlabel
  exact taskSeries_eq hsubset fun _ h => absurd h List.not_mem_nil

theorem customLabels_eq (h : Accepted series.labels) :
    customLabels series =
      runtimeLabels series.toTaskSeries++("metric",series.metric)::series.labels := by
  have hnew : ∀ label ∈ series.labels, label.1 ∉
      (runtimeLabels series.toTaskSeries++[("metric",series.metric)]).map Prod.fst := by
    intro label hlabel
    exact h.unreserved label hlabel
  rw [List.append_cons]
  exact changeAll_fresh h.nodup hnew

theorem filter_unreserved (h : Accepted series.labels) :
    (runtimeLabels series.toTaskSeries++("metric",series.metric)::series.labels).filter
      (fun label => label.1 ∉ reservedLabels) = series.labels := by
  have hruntime : (runtimeLabels series.toTaskSeries).filter
      (fun label => label.1 ∉ reservedLabels) = [] := by
    rw [List.filter_eq_nil_iff]
    intro label hlabel
    simpa using runtimeLabels_reserved _ label hlabel
  rw [List.filter_append,hruntime,List.nil_append,List.filter_cons_of_neg (by simp [reservedLabels])]
  exact List.filter_eq_self.mpr fun label hlabel => decide_eq_true (h.unreserved label hlabel)

/-- A custom series in the form of the exposition. -/
structure Exposable (series : CustomSeries) : Prop where
  accepted : Accepted series.labels
  sorted : sortFields series.labels = series.labels

theorem customLabels_injective {series' : CustomSeries} (h : Exposable series)
    (h' : Exposable series') (hkind : series.kind = series'.kind)
    (heq : series.labelSet = series'.labelSet) : series = series' := by
  have hperm := perm_of_sortFields heq
  have hrest : ∀ label ∈ ("metric",series'.metric)::series'.labels,
      label.1 ∉ (runtimeLabels series'.toTaskSeries).map Prod.fst := by
    intro label hlabel
    rcases List.mem_cons.mp hlabel with rfl | hlabel
    · simp [runtimeLabels]
    · intro hmem
      obtain ⟨other,hother,hkey⟩ := List.mem_map.mp hmem
      exact h'.accepted.unreserved label hlabel (hkey ▸ runtimeLabels_reserved _ other hother)
  have htask := taskSeries_eq
    (fun label hlabel => hperm.subset (List.mem_append_left _ hlabel)) hrest
  have hmetric : series.metric = series'.metric := by
    have hmem : ("metric",series.metric) ∈
        runtimeLabels series'.toTaskSeries++("metric",series'.metric)::series'.labels :=
      hperm.subset (List.mem_append_right _ List.mem_cons_self)
    have hfree : ("metric",series.metric) ∉ series'.labels := fun hmem =>
      h'.accepted.unreserved _ hmem (by simp [reservedLabels])
    simpa [runtimeLabels,hfree] using hmem
  have hlabels : series.labels = series'.labels := by
    have hfiltered := hperm.filter fun label => label.1 ∉ reservedLabels
    rw [filter_unreserved h.accepted,filter_unreserved h'.accepted] at hfiltered
    rw [← h.sorted,← h'.sorted]
    exact sortFields_unique hfiltered h.accepted.nodup
  obtain ⟨task,metric,kind,labels⟩ := series
  obtain ⟨task',metric',kind',labels'⟩ := series'
  cases htask
  cases hmetric
  cases hkind
  cases hlabels
  rfl

end Labels

section Lines

/-- Labels that tell themselves by their text. -/
structure Proper (labels : Labels) : Prop where
  named : Named labels
  nonempty : labels ≠ []

theorem proper_task (series : TaskSeries) : Proper series.labelSet where
  named := fun label hlabel =>
    runtimeLabels_named series label ((sortFields_perm _).subset hlabel)
  nonempty := fun heq => by
    have hlength := (sortFields_perm (runtimeLabels series)).length_eq
    rw [show sortFields (runtimeLabels series) = [] from heq] at hlength
    cases hlength

theorem proper_custom {series : CustomSeries} (h : Accepted series.labels) :
    Proper series.labelSet where
  named := by
    intro label hlabel
    rcases List.mem_append.mp ((sortFields_perm _).subset hlabel) with hmem | hmem
    · exact runtimeLabels_named _ label hmem
    · rcases List.mem_cons.mp hmem with rfl | hmem
      · exact reserved_named "metric" (by simp [reservedLabels])
      · exact h.named label hmem
  nonempty := fun heq => by
    have hlength := (sortFields_perm
      (runtimeLabels series.toTaskSeries++("metric",series.metric)::series.labels)).length_eq
    rw [show sortFields (runtimeLabels series.toTaskSeries++("metric",series.metric)::series.labels)
      = [] from heq,List.length_append] at hlength
    cases hlength

theorem name_injective {family other : Family} (h : family.name = other.name) : family = other := by
  cases family <;> cases other <;> first | rfl | simp [Family.name] at h

variable (family : Family)

theorem name_plain : ∀ c ∈ family.name.toList, decide (c ≠ PrometheusText.opening) = true := by
  cases family <;> exact List.all_eq_true.mp (by decide)

/-- What stands before the value of a line tells its family and its labels. -/
theorem head_injective {sample sample' : Sample} (h : Proper sample.labels)
    (h' : Proper sample'.labels) (heq : sample.head = sample'.head) :
    sample.family = sample'.family ∧ sample.labels = sample'.labels := by
  have hstops : ∀ {labels : Labels}, labels ≠ [] →
      Stops (fun c => decide (c ≠ PrometheusText.opening)) (formatLabels labels) := by
    intro labels hne
    rw [formatLabels,if_neg hne]
    exact stops_cons (by simp)
  obtain ⟨hname,hlabels⟩ := run_eq (name_plain _) (name_plain _) (hstops h.nonempty)
    (hstops h'.nonempty) heq
  exact ⟨name_injective (String.toList_injective hname),
    formatLabels_injective h.named h'.named h.nonempty h'.nonempty hlabels⟩

theorem sampled_perm (pairs : List (Labels × Option ℚ)) :
    (sampled family pairs).Perm (pairs.filterMap fun pair =>
      pair.2.map fun value => ⟨family,sortFields pair.1,value⟩) :=
  (List.mergeSort_perm _ _).filterMap _

theorem sampled_some {A : Type} (pairs : List A) (labels : A → Labels) (value : A → ℚ) :
    (sampled family (pairs.map fun a => (labels a,some (value a)))).Perm
      (pairs.map fun a => ⟨family,sortFields (labels a),value a⟩) := by
  have h := sampled_perm family (pairs.map fun a => (labels a,some (value a)))
  rw [List.filterMap_map] at h
  exact h.trans (.of_eq (congrFun List.filterMap_eq_map' pairs))

/-- Lines of one family, with labels that tell them apart. -/
structure Fine (family : Family) (lines : List Sample) : Prop where
  nodup : (lines.map Sample.labels).Nodup
  family : ∀ line ∈ lines, line.family = family
  proper : ∀ line ∈ lines, Proper line.labels

theorem fine_sampled {A : Type} {pairs : List A} {labels : A → Labels} {value : A → Option ℚ}
    (hnodup : (pairs.map fun a => sortFields (labels a)).Nodup)
    (hproper : ∀ a ∈ pairs, Proper (sortFields (labels a))) :
    Fine family (sampled family (pairs.map fun a => (labels a,value a))) := by
  have hperm := sampled_perm family (pairs.map fun a => (labels a,value a))
  rw [List.filterMap_map] at hperm
  have hmem : ∀ line ∈ sampled family (pairs.map fun a => (labels a,value a)),
      ∃ a ∈ pairs, line.family = family ∧ line.labels = sortFields (labels a) := by
    intro line hline
    obtain ⟨a,ha,hvalue⟩ := List.mem_filterMap.mp (hperm.subset hline)
    obtain ⟨v,-,rfl⟩ := Option.map_eq_some_iff.mp hvalue
    exact ⟨a,ha,rfl,rfl⟩
  constructor
  · rw [(hperm.map Sample.labels).nodup_iff]
    refine List.Nodup.sublist ?_ hnodup
    clear hperm hmem hnodup hproper
    induction pairs with
    | nil => exact .slnil
    | cons a pairs ih =>
      rw [List.filterMap_cons]
      cases hvalue : value a with
      | none =>
        simp only [Function.comp_apply,hvalue,Option.map_none]
        exact ih.cons _
      | some v =>
        simp only [Function.comp_apply,hvalue,Option.map_some,List.map_cons]
        exact ih.cons_cons _
  · intro line hline
    obtain ⟨a,-,hfamily,-⟩ := hmem line hline
    exact hfamily
  · intro line hline
    obtain ⟨a,ha,-,hlabels⟩ := hmem line hline
    exact hlabels ▸ hproper a ha

theorem nodup_heads {lines : Family → List Sample} (h : ∀ family, Fine family (lines family)) :
    ((Family.all.flatMap lines).map Sample.head).Nodup := by
  have hall : ∀ line ∈ Family.all.flatMap lines, Proper line.labels := by
    intro line hline
    obtain ⟨family,-,hmem⟩ := List.mem_flatMap.mp hline
    exact (h family).proper line hmem
  have hnodup : (Family.all.flatMap lines).Nodup := by
    rw [List.nodup_flatMap]
    refine ⟨fun family _ => (h family).nodup.of_map _,?_⟩
    refine List.Pairwise.imp_of_mem ?_ (show Family.all.Nodup by decide)
    intro family other _ _ hne line hline hother
    exact hne (((h family).family line hline).symm.trans ((h other).family line hother))
  refine hnodup.map_on ?_
  intro line hline other hother heq
  obtain ⟨hfamily,hlabels⟩ := head_injective (hall line hline) (hall other hother) heq
  obtain ⟨family,-,hmem⟩ := List.mem_flatMap.mp hline
  obtain ⟨family',-,hmem'⟩ := List.mem_flatMap.mp hother
  have hsame : family = family' :=
    ((h family).family line hmem).symm.trans (hfamily.trans ((h family').family other hmem'))
  subst hsame
  exact List.inj_on_of_nodup_map (h family).nodup hmem hmem' hlabels

end Lines

section Rows
variable {R S : Type} {series : R → Option S} {rows : List R}

theorem mem_joined {s : S} {r : R} : (s,r) ∈ joined series rows ↔ r ∈ rows ∧ series r = some s := by
  rw [joined,List.mem_filterMap]
  constructor
  · intro ⟨r',hr',h⟩
    obtain ⟨s',hs',heq⟩ := Option.map_eq_some_iff.mp h
    cases heq
    exact ⟨hr',hs'⟩
  · intro ⟨hr,hs⟩
    exact ⟨r,hr,by rw [hs,Option.map_some]⟩

theorem joined_congr {series' : R → Option S} (h : ∀ r ∈ rows, series r = series' r) :
    joined series rows = joined series' rows :=
  List.filterMap_congr fun r hr => by rw [h r hr]

theorem joined_filter (p : R → Bool) :
    joined series (rows.filter p) = (joined series rows).filter fun row => p row.2 := by
  induction rows with
  | nil => rfl
  | cons r rows ih =>
    simp only [joined] at ih ⊢
    cases hp : p r <;> cases hs : series r <;> simp [hp,hs,ih]

theorem joined_map {S' : Type} (g : S → S') :
    joined (fun r => (series r).map g) rows =
      (joined series rows).map fun row => (g row.1,row.2) := by
  rw [joined,joined,List.map_filterMap]
  apply List.filterMap_congr
  intro r _
  rw [Option.map_map,Option.map_map]
  rfl

theorem greatest_congr {α K : Type} [LinearOrder K] {key : α → K} {l l' : List α} {a : α}
    (hmem : ∀ b, b ∈ l ↔ b ∈ l') (h : Greatest key l a) : Greatest key l' a :=
  ⟨(hmem a).mp h.mem,fun b hb => h.top b ((hmem b).mpr hb)⟩

section Latest
variable {T K : Type} [LinearOrder T] [DecidableEq K] {db : Database} {partition : R → K}
  {stamp : R → T ×ₗ T}

theorem latest_partition {k : K} {r : R}
    (h : latest stamp (db.arrange (rows.filter fun row => partition row = k)) = some r) :
    partition r = k ∧ Greatest stamp (rows.filter fun row => partition row = k) r := by
  have hgreatest := greatest_congr (fun b => (db.perm _).mem_iff) (greatest_latest h)
  exact ⟨of_decide_eq_true (List.mem_filter.mp hgreatest.mem).2,hgreatest⟩

theorem mem_latestRows {r : R} (h : r ∈ latestRows db partition stamp rows) :
    Greatest stamp (rows.filter fun row => partition row = partition r) r := by
  obtain ⟨k,-,hk⟩ := List.mem_filterMap.mp h
  obtain ⟨rfl,hgreatest⟩ := latest_partition hk
  exact hgreatest

theorem latestRows_subset {r : R} (h : r ∈ latestRows db partition stamp rows) : r ∈ rows :=
  List.mem_of_mem_filter (mem_latestRows h).mem

theorem exists_latestRows (db : Database) (partition : R → K) (stamp : R → T ×ₗ T) {r : R}
    (h : r ∈ rows) : ∃ r' ∈ latestRows db partition stamp rows, partition r' = partition r := by
  cases hlatest : latest stamp (db.arrange (rows.filter fun row => partition row = partition r)) with
  | none =>
    have hmem : r ∈ db.arrange (rows.filter fun row => partition row = partition r) :=
      (db.perm _).mem_iff.mpr (List.mem_filter.mpr ⟨h,decide_eq_true rfl⟩)
    rw [latest_none hlatest] at hmem
    cases hmem
  | some r' =>
    exact ⟨r',List.mem_filterMap.mpr ⟨partition r,List.mem_dedup.mpr (List.mem_map_of_mem h),hlatest⟩,
      (latest_partition hlatest).1⟩

theorem nodup_latestRows (db : Database) (partition : R → K) (stamp : R → T ×ₗ T) (rows : List R) :
    ((latestRows db partition stamp rows).map partition).Nodup := by
  rw [latestRows,List.map_filterMap]
  refine List.Nodup.sublist ?_ (List.nodup_dedup (rows.map partition))
  have hsame : ∀ k, Option.map partition
      (latest stamp (db.arrange (rows.filter fun row => partition row = k))) = none ∨
      Option.map partition
        (latest stamp (db.arrange (rows.filter fun row => partition row = k))) = some k := by
    intro k
    cases hlatest : latest stamp (db.arrange (rows.filter fun row => partition row = k)) with
    | none => exact .inl rfl
    | some r => exact .inr (congrArg some (latest_partition hlatest).1)
  induction (rows.map partition).dedup with
  | nil => exact .slnil
  | cons k ks ih =>
    rw [List.filterMap_cons]
    rcases hsame k with hnone | hsome
    · rw [hnone]
      exact ih.cons _
    · rw [hsome]
      exact ih.cons_cons _

end Latest

end Rows

section Soundness
variable {T : Type}

/-- What ingestion and retention keep. -/
structure Sound (w : Plane T) : Prop where
  services : w.services.Nodup
  windows : (w.metricWindows.map TaskMetricWindow.key).Nodup
  placed : ∀ row ∈ w.metricWindows, row.serviceId < w.services.length
  customPlaced : ∀ row ∈ w.customWindows, row.serviceId < w.services.length
  labels : ∀ row ∈ w.customWindows, Accepted row.labels
  counters : ∀ row ∈ w.customWindows, row.kind = .counter → 0 ≤ row.value

theorem sound_init : Sound ({} : Plane T) where
  services := List.nodup_nil
  windows := List.nodup_nil
  placed := fun _ h => absurd h List.not_mem_nil
  customPlaced := fun _ h => absurd h List.not_mem_nil
  labels := fun _ h => absurd h List.not_mem_nil
  counters := fun _ h => absurd h List.not_mem_nil

/-- What validation leaves of a custom metric. -/
def Valid (metric : CustomMetricIngest) : Prop :=
  Accepted metric.labels ∧ (metric.kind = .counter → 0 ≤ metric.value)

theorem valid_validateMetric {metric result : CustomMetricIngest}
    (h : validateMetric metric = some result) : Valid result := by
  unfold validateMetric at h
  simp only at h
  split at h
  · next hmetric =>
      obtain ⟨labels,hlabels,rfl⟩ := Option.map_eq_some_iff.mp h
      exact ⟨accepted_validateLabels accepted_nil hlabels,hmetric.2⟩
  · cases h

theorem valid_validateTask {task result : TaskWindowIngest} (h : validateTask task = some result) :
    ∀ metric ∈ result.customMetrics, Valid metric := by
  obtain ⟨metrics,hmetrics,rfl⟩ := Option.map_eq_some_iff.mp h
  intro metric hmetric
  obtain ⟨raw,-,hraw⟩ := forall₂_right (mapM_some hmetrics) hmetric
  exact valid_validateMetric hraw

theorem ensureService_eq (services : List (String × String)) (service : String × String) :
    ∃ extra, ensureService services service = services++extra := by
  unfold ensureService
  split
  · exact ⟨[],(List.append_nil _).symm⟩
  · exact ⟨[service],rfl⟩

theorem nodup_ensureService {services : List (String × String)} (h : services.Nodup)
    (service : String × String) : (ensureService services service).Nodup := by
  unfold ensureService
  split
  · exact h
  · next hnew =>
      rw [List.nodup_append]
      refine ⟨h,List.nodup_singleton _,fun a ha b hb heq => ?_⟩
      exact hnew (List.mem_singleton.mp hb ▸ heq ▸ ha)

theorem idxOf_ensureService (services : List (String × String)) (service : String × String) :
    services.idxOf service < (ensureService services service).length := by
  unfold ensureService
  split
  · next hmem => exact List.idxOf_lt_length_of_mem hmem
  · rw [List.length_append,List.length_singleton]
    exact Nat.lt_succ_of_le List.idxOf_le_length

section Ingest
variable {labelsHash : Labels → String} {w w' : Plane T} {request : MetricsIngestRequest T} {now : T}
  {tasks : List TaskWindowIngest} {id : ℕ}

theorem ingest_cases (h : ingestMetricsRequest labelsHash w request now = some w') :
    ∃ tasks instances, request.tasks.mapM validateTask = some tasks ∧ w' = {
      services := ensureService w.services (request.serviceName,request.environment)
      instances := instances
      metricWindows := addNew TaskMetricWindow.key ((requestTasks tasks).map
        (buildMetricWindowPayload (w.services.idxOf (request.serviceName,request.environment))
          request now)) w.metricWindows
      customWindows := addNew TaskCustomMetricWindow.key
        (requestCustomRows labelsHash
          (w.services.idxOf (request.serviceName,request.environment)) request now tasks)
        w.customWindows} := by
  obtain ⟨tasks,htasks,hrest⟩ := Option.bind_eq_some_iff.mp h
  obtain ⟨instances,-,rfl⟩ := Option.map_eq_some_iff.mp hrest
  exact ⟨tasks,instances,htasks,rfl⟩

theorem mem_dedupeByKey {α κ : Type} [DecidableEq κ] {key : α → κ} {items : List α} {item : α}
    (h : item ∈ dedupeByKey key items) : item ∈ items :=
  (mem_addNew h).resolve_left List.not_mem_nil

theorem requestCustomRows_valid (hvalid : ∀ task ∈ tasks, ∀ metric ∈ task.customMetrics, Valid metric)
    {row : TaskCustomMetricWindow T}
    (h : row ∈ requestCustomRows labelsHash id request now tasks) :
    row.serviceId = id ∧ Accepted row.labels ∧ (row.kind = .counter → 0 ≤ row.value) := by
  obtain ⟨task,htask,hrow⟩ := List.mem_flatMap.mp (mem_dedupeByKey h)
  obtain ⟨metric,hmetric,rfl⟩ := List.mem_map.mp hrow
  exact ⟨rfl,hvalid task (mem_dedupeByKey htask) metric hmetric⟩

theorem valid_tasks {raw : List TaskWindowIngest} (h : raw.mapM validateTask = some tasks) :
    ∀ task ∈ tasks, ∀ metric ∈ task.customMetrics, Valid metric := by
  intro task htask
  obtain ⟨_,-,hraw⟩ := forall₂_right (mapM_some h) htask
  exact valid_validateTask hraw

theorem sound_ingest (hw : Sound w) (h : ingestMetricsRequest labelsHash w request now = some w') :
    Sound w' := by
  obtain ⟨tasks,instances,htasks,rfl⟩ := ingest_cases h
  have hid := idxOf_ensureService w.services (request.serviceName,request.environment)
  have hlonger : w.services.length ≤
      (ensureService w.services (request.serviceName,request.environment)).length := by
    obtain ⟨extra,heq⟩ := ensureService_eq w.services (request.serviceName,request.environment)
    rw [heq,List.length_append]
    exact Nat.le_add_right _ _
  have hnew : ∀ row ∈ requestCustomRows labelsHash
      (w.services.idxOf (request.serviceName,request.environment)) request now tasks,
      row.serviceId = w.services.idxOf (request.serviceName,request.environment) ∧
        Accepted row.labels ∧ (row.kind = .counter → 0 ≤ row.value) :=
    fun _ => requestCustomRows_valid (valid_tasks htasks)
  constructor
  · exact nodup_ensureService hw.services _
  · exact nodup_addNew hw.windows
  · intro row hrow
    rcases mem_addNew hrow with hold | hrow
    · exact Nat.lt_of_lt_of_le (hw.placed row hold) hlonger
    · obtain ⟨task,-,rfl⟩ := List.mem_map.mp hrow
      exact hid
  · intro row hrow
    rcases mem_addNew hrow with hold | hrow
    · exact Nat.lt_of_lt_of_le (hw.customPlaced row hold) hlonger
    · exact (hnew row hrow).1 ▸ hid
  · intro row hrow
    rcases mem_addNew hrow with hold | hrow
    · exact hw.labels row hold
    · exact (hnew row hrow).2.1
  · intro row hrow
    rcases mem_addNew hrow with hold | hrow
    · exact hw.counters row hold
    · exact (hnew row hrow).2.2

end Ingest

theorem sound_deleteBatch [LinearOrder T] {db : Database} {w : Plane T} (hw : Sound w) (limit : ℕ)
    (cutoff : T) : Sound (deleteBatch db w limit cutoff) where
  services := hw.services
  windows := (List.filter_sublist.map TaskMetricWindow.key).nodup hw.windows
  placed := fun row hrow => hw.placed row (List.mem_of_mem_filter hrow)
  customPlaced := hw.customPlaced
  labels := hw.labels
  counters := hw.counters

theorem sound_perform [LinearOrder T] {db : Database} {labelsHash : Labels → String} {w w' : Plane T}
    {act : Act T} (hw : Sound w) (h : w.perform db labelsHash act = some w') : Sound w' := by
  cases act with
  | ingest request now =>
    cases h
    cases hresult : ingestMetricsRequest labelsHash w request now with
    | none => exact hw
    | some w' => exact sound_ingest hw hresult
  | deleteBatch limit cutoff =>
    cases h
    exact sound_deleteBatch hw limit cutoff

end Soundness

section Growth
variable {T : Type}

/-- No counter of a series is less afterwards. -/
structure Grown (w w' : Plane T) : Prop where
  succeeded : ∀ series, windowSum TaskMetricWindow.succeeded w series ≤
    windowSum TaskMetricWindow.succeeded w' series
  failed : ∀ series, windowSum TaskMetricWindow.failed w series ≤
    windowSum TaskMetricWindow.failed w' series
  custom : ∀ series, series.kind = .counter → customSum w series ≤ customSum w' series

theorem Grown.refl (w : Plane T) : Grown w w where
  succeeded := fun _ => le_refl _
  failed := fun _ => le_refl _
  custom := fun _ _ => le_refl _

variable {w w' : Plane T}

theorem Grown.trans {w'' : Plane T} (h : Grown w w') (h' : Grown w' w'') : Grown w w'' where
  succeeded := fun series => le_trans (h.succeeded series) (h'.succeeded series)
  failed := fun series => le_trans (h.failed series) (h'.failed series)
  custom := fun series hkind => le_trans (h.custom series hkind) (h'.custom series hkind)

variable {services : List (String × String)}

theorem series_kind {row : TaskCustomMetricWindow T} {series : CustomSeries}
    (h : row.series services = some series) : series.kind = row.kind := by
  obtain ⟨service,-,rfl⟩ := Option.map_eq_some_iff.mp h
  rfl

theorem windowSum_append (count : TaskMetricWindow T → ℕ) (hw : Sound w)
    {extra : List (TaskMetricWindow T)} (hservices : w'.services = w.services++services)
    (hwindows : w'.metricWindows = w.metricWindows++extra) (series : TaskSeries) :
    windowSum count w series ≤ windowSum count w' series := by
  have hsame : taskRows w = joined (TaskMetricWindow.series w'.services) w.metricWindows := by
    refine joined_congr fun row hrow => ?_
    rw [TaskMetricWindow.series,TaskMetricWindow.series,hservices,
      List.getElem?_append_left (hw.placed row hrow)]
  have hrows : taskRows w' = taskRows w++joined (TaskMetricWindow.series w'.services) extra := by
    rw [hsame,taskRows,hwindows,joined,List.filterMap_append]
    rfl
  rw [windowSum,windowSum,hrows]
  exact total_le_append fun _ _ _ => Nat.zero_le _

theorem customSum_append (hw : Sound w) (hw' : Sound w') {extra : List (TaskCustomMetricWindow T)}
    (hservices : w'.services = w.services++services)
    (hwindows : w'.customWindows = w.customWindows++extra) {series : CustomSeries}
    (hkind : series.kind = .counter) : customSum w series ≤ customSum w' series := by
  have hsame : customRows w =
      joined (TaskCustomMetricWindow.series w'.services) w.customWindows := by
    refine joined_congr fun row hrow => ?_
    rw [TaskCustomMetricWindow.series,TaskCustomMetricWindow.series,hservices,
      List.getElem?_append_left (hw.customPlaced row hrow)]
  have hrows : customRows w' =
      customRows w++joined (TaskCustomMetricWindow.series w'.services) extra := by
    rw [hsame,customRows,hwindows,joined,List.filterMap_append]
    rfl
  rw [customSum,customSum,hrows]
  refine total_le_append fun row hrow hkey => ?_
  obtain ⟨s,r⟩ := row
  obtain ⟨hr,hs⟩ := mem_joined.mp hrow
  cases hkey
  refine hw'.counters r ?_ ((series_kind hs).symm.trans hkind)
  rw [hwindows]
  exact List.mem_append_right _ hr

theorem grown_ingest {labelsHash : Labels → String} (hw : Sound w)
    {request : MetricsIngestRequest T} {now : T}
    (h : ingestMetricsRequest labelsHash w request now = some w') : Grown w w' := by
  have hw' := sound_ingest hw h
  obtain ⟨tasks,instances,-,rfl⟩ := ingest_cases h
  obtain ⟨services,hservices⟩ :=
    ensureService_eq w.services (request.serviceName,request.environment)
  obtain ⟨extra,hwindows,-⟩ := addNew_extra TaskMetricWindow.key ((requestTasks tasks).map
    (buildMetricWindowPayload (w.services.idxOf (request.serviceName,request.environment))
      request now)) w.metricWindows
  obtain ⟨custom,hcustom,-⟩ := addNew_extra TaskCustomMetricWindow.key
    (requestCustomRows labelsHash (w.services.idxOf (request.serviceName,request.environment))
      request now tasks) w.customWindows
  exact {
    succeeded := windowSum_append _ hw hservices hwindows
    failed := windowSum_append _ hw hservices hwindows
    custom := fun _ => customSum_append hw hw' hservices hcustom}

variable [LinearOrder T]

theorem windowSum_deleteBatch {db : Database} (hw : Sound w) {limit : ℕ} {cutoff : T}
    {count : TaskMetricWindow T → ℕ} (h : ∀ row ∈ retentionBatch db w limit cutoff, count row = 0)
    (series : TaskSeries) :
    windowSum count (deleteBatch db w limit cutoff) series = windowSum count w series := by
  have hrows : taskRows (deleteBatch db w limit cutoff) = (taskRows w).filter fun row =>
      row.2.key ∉ (retentionBatch db w limit cutoff).map TaskMetricWindow.key := joined_filter _
  rw [windowSum,windowSum,hrows]
  refine total_filter _ fun row hrow hdeleted => ?_
  obtain ⟨s,r⟩ := row
  obtain ⟨hr,-⟩ := mem_joined.mp hrow
  obtain ⟨other,hother,hkey⟩ := List.mem_map.mp (of_decide_eq_false hdeleted |> not_not.mp)
  have hstored : other ∈ w.metricWindows := (db.perm _).mem_iff.mp (mem_select hother).1
  rw [← eq_of_key hw.windows hstored hr hkey]
  exact h other hother

/-- A step that keeps the series lets them grow only. -/
theorem grown_perform {db : Database} {labelsHash : Labels → String} {act : Act T} (hw : Sound w)
    (hkeeps : Keeps db labelsHash w act) (h : w.perform db labelsHash act = some w') :
    Grown w w' := by
  cases act with
  | ingest request now =>
    cases h
    cases hresult : ingestMetricsRequest labelsHash w request now with
    | none => exact .refl w
    | some w' => exact grown_ingest hw hresult
  | deleteBatch limit cutoff =>
    cases h
    exact {
      succeeded := fun series =>
        le_of_eq (windowSum_deleteBatch hw (fun row hrow => (hkeeps row hrow).1) series).symm
      failed := fun series =>
        le_of_eq (windowSum_deleteBatch hw (fun row hrow => (hkeeps row hrow).2) series).symm
      custom := fun _ _ => le_refl _}

end Growth

section TaskFamilies
variable {T : Type} {w : Plane T}

variable {row : TaskSeries × TaskMetricWindow T}

theorem partition_iff (hw : Sound w) {row' : TaskSeries × TaskMetricWindow T}
    (hrow : row ∈ taskRows w) (hrow' : row' ∈ taskRows w) :
    (row.2.serviceId,row.2.taskName,row.2.instanceId) =
      (row'.2.serviceId,row'.2.taskName,row'.2.instanceId) ↔ row.1 = row'.1 := by
  obtain ⟨s,r⟩ := row
  obtain ⟨s',r'⟩ := row'
  obtain ⟨hr,hs⟩ := mem_joined.mp hrow
  obtain ⟨hr',hs'⟩ := mem_joined.mp hrow'
  obtain ⟨service,hservice,rfl⟩ := Option.map_eq_some_iff.mp hs
  obtain ⟨service',hservice',rfl⟩ := Option.map_eq_some_iff.mp hs'
  constructor
  · intro h
    obtain ⟨hid,htask,hinstance⟩ : r.serviceId = r'.serviceId ∧ r.taskName = r'.taskName ∧
      r.instanceId = r'.instanceId := by simpa using h
    rw [hid,hservice'] at hservice
    cases hservice
    simp only
    rw [htask,hinstance]
  · intro h
    obtain ⟨hname,henvironment,htask,hinstance⟩ : service.1 = service'.1 ∧
      service.2 = service'.2 ∧ r.taskName = r'.taskName ∧ r.instanceId = r'.instanceId := by
        simpa using h
    have hid : r.serviceId = r'.serviceId := by
      rw [← List.getElem?_inj (hw.placed r hr) hw.services,hservice,hservice',
        Prod.ext hname henvironment]
    simp only
    rw [hid,htask,hinstance]

/-- The totals of a series before its gauges are known. -/
def startAggregate (w : Plane T) (series : TaskSeries) : TaskSeries × TaskRuntimeAggregate :=
  (series,{
    succeeded := windowSum TaskMetricWindow.succeeded w series
    failed := windowSum TaskMetricWindow.failed w series})

theorem keys_startAggregate :
    ((storedTasks w).map (startAggregate w)).map Prod.fst = storedTasks w := by
  rw [List.map_map]
  exact List.map_id _

variable (db : Database)

theorem nodup_startAggregate :
    ((db.arrange ((storedTasks w).map (startAggregate w))).map Prod.fst).Nodup := by
  rw [((db.perm _).map Prod.fst).nodup_iff,keys_startAggregate]
  exact List.nodup_dedup _

variable [LinearOrder T]

def latestTaskRows (db : Database) (w : Plane T) : List (TaskSeries × TaskMetricWindow T) :=
  db.arrange (latestRows db (fun row => (row.2.serviceId,row.2.taskName,row.2.instanceId))
    (fun row => toLex (row.2.endedAt,row.2.createdAt)) (taskRows w))

theorem collectTask_eq (w : Plane T) : collectTaskRuntimeMetrics db w =
    changeAll setLatest (latestTaskRows db w)
      (db.arrange ((storedTasks w).map (startAggregate w))) := by
  rw [← collect_of_nodup (nodup_startAggregate db)]
  rfl

theorem latestTaskRows_subset {db : Database} (h : row ∈ latestTaskRows db w) : row ∈ taskRows w :=
  latestRows_subset ((db.perm _).mem_iff.mp h)

theorem latestTaskRows_stored {db : Database} (h : row ∈ latestTaskRows db w) :
    row.1 ∈ (db.arrange ((storedTasks w).map (startAggregate w))).map Prod.fst := by
  rw [((db.perm _).map Prod.fst).mem_iff,keys_startAggregate]
  exact List.mem_dedup.mpr (List.mem_map_of_mem (latestTaskRows_subset h))

theorem taskCounters_perm (w : Plane T) :
    ((collectTaskRuntimeMetrics db w).map fun pair =>
      (pair.1,pair.2.succeeded,pair.2.failed)).Perm ((storedTasks w).map fun series =>
        (series,windowSum TaskMetricWindow.succeeded w series,
          windowSum TaskMetricWindow.failed w series)) := by
  have hkept : ((changeAll setLatest (latestTaskRows db w)
      (db.arrange ((storedTasks w).map (startAggregate w)))).map fun pair =>
        (pair.1,pair.2.succeeded,pair.2.failed)) =
      (db.arrange ((storedTasks w).map (startAggregate w))).map fun pair =>
        (pair.1,pair.2.succeeded,pair.2.failed) :=
    map_changeAll (p := fun aggregate => (aggregate.succeeded,aggregate.failed)) (fun _ _ => rfl)
      fun _ => latestTaskRows_stored
  rw [collectTask_eq,hkept]
  refine ((db.perm _).map _).trans (.of_eq ?_)
  rw [List.map_map]
  rfl

theorem taskKeys_perm (w : Plane T) :
    ((collectTaskRuntimeMetrics db w).map Prod.fst).Perm (storedTasks w) := by
  have hperm := (taskCounters_perm db w).map Prod.fst
  rw [List.map_map,List.map_map] at hperm
  exact hperm.trans (.of_eq (List.map_id _))

theorem nodup_latestTaskRows (hw : Sound w) (db : Database) :
    ((latestTaskRows db w).map Prod.fst).Nodup := by
  have hpartition := nodup_latestRows db
    (fun row : TaskSeries × TaskMetricWindow T => (row.2.serviceId,row.2.taskName,row.2.instanceId))
    (fun row => toLex (row.2.endedAt,row.2.createdAt)) (taskRows w)
  rw [latestTaskRows,((db.perm _).map Prod.fst).nodup_iff]
  refine (hpartition.of_map _).map_on ?_
  intro row hrow row' hrow' heq
  exact List.inj_on_of_nodup_map hpartition hrow hrow'
    ((partition_iff hw (latestRows_subset hrow) (latestRows_subset hrow')).mpr heq)

variable {series : TaskSeries}

theorem isLatest_of_mem (hw : Sound w) {db : Database} {row : TaskMetricWindow T}
    (h : (series,row) ∈ latestTaskRows db w) : IsLatest w series row := by
  have hmem := (db.perm _).mem_iff.mp h
  refine greatest_congr (fun other => ?_) (mem_latestRows hmem)
  rw [List.mem_filter,List.mem_filter]
  refine and_congr_right fun hother => ?_
  rw [decide_eq_true_iff,decide_eq_true_iff]
  exact partition_iff hw hother (latestRows_subset hmem)

theorem latest_of_mem (hw : Sound w) {db : Database} {aggregate : TaskRuntimeAggregate}
    (h : (series,aggregate) ∈ collectTaskRuntimeMetrics db w) :
    ∃ row, IsLatest w series row ∧ aggregate.latestAvgDurationMs = row.avgDurationMs := by
  have hstored := (taskKeys_perm db w).subset (List.mem_map_of_mem h)
  obtain ⟨stored,hmem,hkey⟩ := List.mem_map.mp (List.mem_dedup.mp hstored)
  obtain ⟨found,hfound,hpartition⟩ := exists_latestRows db
    (fun row : TaskSeries × TaskMetricWindow T => (row.2.serviceId,row.2.taskName,row.2.instanceId))
    (fun row => toLex (row.2.endedAt,row.2.createdAt)) hmem
  have hseries : found.1 = series :=
    ((partition_iff hw (latestRows_subset hfound) hmem).mp hpartition).trans hkey
  obtain ⟨s,row⟩ := found
  have hlatest : (series,row) ∈ latestTaskRows db w := by
    rw [← show s = series from hseries]
    exact (db.perm _).mem_iff.mpr hfound
  rw [collectTask_eq] at h
  obtain ⟨o,haggregate⟩ :=
    mem_changeAll (nodup_startAggregate db) (nodup_latestTaskRows hw db) h hlatest
  exact ⟨row,isLatest_of_mem hw hlatest,by rw [haggregate,setLatest]⟩

theorem succeeded_perm (w : Plane T) :
    (samples db w .succeeded).Perm ((storedTasks w).map fun series =>
      ⟨.succeeded,series.labelSet,(windowSum TaskMetricWindow.succeeded w series : ℚ)⟩) := by
  have hperm := (taskCounters_perm db w).map fun found : TaskSeries × ℕ × ℕ =>
    (⟨.succeeded,found.1.labelSet,(found.2.1 : ℚ)⟩ : Sample)
  rw [List.map_map,List.map_map] at hperm
  exact (sampled_some _ _ (fun pair : TaskSeries × TaskRuntimeAggregate => runtimeLabels pair.1)
    fun pair => (pair.2.succeeded : ℚ)).trans hperm

theorem failed_perm (w : Plane T) :
    (samples db w .failed).Perm ((storedTasks w).map fun series =>
      ⟨.failed,series.labelSet,(windowSum TaskMetricWindow.failed w series : ℚ)⟩) := by
  have hperm := (taskCounters_perm db w).map fun found : TaskSeries × ℕ × ℕ =>
    (⟨.failed,found.1.labelSet,(found.2.2 : ℚ)⟩ : Sample)
  rw [List.map_map,List.map_map] at hperm
  exact (sampled_some _ _ (fun pair : TaskSeries × TaskRuntimeAggregate => runtimeLabels pair.1)
    fun pair => (pair.2.failed : ℚ)).trans hperm

theorem inflight_perm (w : Plane T) :
    ((samples db w .inflight).map Sample.labels).Perm ((storedTasks w).map TaskSeries.labelSet) := by
  have hperm := (taskKeys_perm db w).map TaskSeries.labelSet
  have hlines := (sampled_some .inflight (collectTaskRuntimeMetrics db w)
    (fun pair => runtimeLabels pair.1) fun pair => (pair.2.latestInflight : ℚ)).map Sample.labels
  rw [List.map_map] at hperm hlines
  exact hlines.trans hperm

theorem mem_duration {db : Database} {labels : Labels} :
    labels ∈ (samples db w .duration).map Sample.labels ↔
      ∃ pair ∈ collectTaskRuntimeMetrics db w,
        pair.2.latestAvgDurationMs ≠ none ∧ labels = pair.1.labelSet := by
  have hperm := (sampled_perm .duration (((collectTaskRuntimeMetrics db w).filter fun pair =>
    pair.2.latestAvgDurationMs.isSome).map fun pair =>
      (runtimeLabels pair.1,pair.2.latestAvgDurationMs))).map Sample.labels
  refine hperm.mem_iff.trans ?_
  rw [List.filterMap_map,List.mem_map]
  constructor
  · intro ⟨line,hline,hlabels⟩
    obtain ⟨pair,hpair,hvalue⟩ := List.mem_filterMap.mp hline
    obtain ⟨hmem,hsome⟩ := List.mem_filter.mp hpair
    obtain ⟨v,-,rfl⟩ := Option.map_eq_some_iff.mp hvalue
    exact ⟨pair,hmem,Option.isSome_iff_ne_none.mp hsome,hlabels.symm⟩
  · intro ⟨pair,hpair,hsome,hlabels⟩
    obtain ⟨v,hv⟩ := Option.ne_none_iff_exists'.mp hsome
    refine ⟨⟨.duration,labels,v⟩,List.mem_filterMap.mpr ⟨pair,?_,?_⟩,rfl⟩
    · exact List.mem_filter.mpr ⟨hpair,Option.isSome_iff_ne_none.mpr hsome⟩
    · rw [hlabels]
      exact Option.map_eq_some_iff.mpr ⟨v,hv,rfl⟩

theorem duration_stored (hw : Sound w) {db : Database} {labels : Labels}
    (h : labels ∈ (samples db w .duration).map Sample.labels) :
    ∃ series ∈ storedTasks w, labels = series.labelSet ∧
      ∃ row, IsLatest w series row ∧ row.avgDurationMs ≠ none := by
  obtain ⟨pair,hpair,hsome,hlabels⟩ := mem_duration.mp h
  obtain ⟨row,hlatest,heq⟩ := latest_of_mem hw hpair
  exact ⟨pair.1,(taskKeys_perm db w).subset (List.mem_map_of_mem hpair),hlabels,row,hlatest,
    heq ▸ hsome⟩

theorem duration_shown (hw : Sound w) {db : Database} (h : series ∈ storedTasks w)
    (hrow : ∀ row, IsLatest w series row → row.avgDurationMs ≠ none) :
    series.labelSet ∈ (samples db w .duration).map Sample.labels := by
  obtain ⟨pair,hpair,rfl⟩ := List.mem_map.mp ((taskKeys_perm db w).symm.subset h)
  obtain ⟨row,hlatest,heq⟩ := latest_of_mem hw hpair
  exact mem_duration.mpr ⟨pair,hpair,heq ▸ hrow row hlatest,rfl⟩

theorem nodup_taskLabels (w : Plane T) :
    ((collectTaskRuntimeMetrics db w).map fun pair => pair.1.labelSet).Nodup := by
  have hkeys := (taskKeys_perm db w).nodup_iff.mpr (List.nodup_dedup _)
  have hlabels := hkeys.map fun _ _ => taskLabels_injective
  rw [List.map_map] at hlabels
  exact hlabels

theorem fine_task (w : Plane T) (family : Family) (value : TaskRuntimeAggregate → Option ℚ)
    (p : TaskSeries × TaskRuntimeAggregate → Bool) :
    Fine family (sampled family (((collectTaskRuntimeMetrics db w).filter p).map fun pair =>
      (runtimeLabels pair.1,value pair.2))) := by
  apply fine_sampled
  · exact (List.filter_sublist.map _).nodup (nodup_taskLabels db w)
  · exact fun pair _ => proper_task pair.1

end TaskFamilies

section CustomFamilies
variable {T : Type} {w : Plane T}

theorem sortFields_jsonKey (db : Database) {labels : Labels} (h : Accepted labels) :
    sortFields (db.jsonKey labels) = sortFields labels := by
  unfold Database.jsonKey
  cases db.dialect with
  | sqlite => rfl
  | postgresql => exact sortFields_idem h

theorem series_group (db : Database) {services : List (String × String)}
    {row : TaskCustomMetricWindow T} (h : Accepted row.labels) :
    row.series services = (row.group db services).map CustomSeries.sorted := by
  rw [TaskCustomMetricWindow.series,TaskCustomMetricWindow.group,Option.map_map]
  congr 1
  funext service
  rw [Function.comp_apply,CustomSeries.sorted,sortFields_jsonKey db h]

/-- The custom windows as the queries group them. -/
def groupRows (db : Database) (w : Plane T) : List (CustomSeries × TaskCustomMetricWindow T) :=
  joined (TaskCustomMetricWindow.group db w.services) w.customWindows

theorem customRows_eq (hw : Sound w) (db : Database) :
    customRows w = (groupRows db w).map fun row => (row.1.sorted,row.2) := by
  rw [groupRows,← joined_map]
  exact joined_congr fun row hrow => series_group db (hw.labels row hrow)

variable {row : CustomSeries × TaskCustomMetricWindow T}

variable {db : Database}

theorem group_kind (h : row ∈ groupRows db w) : row.1.kind = row.2.kind := by
  obtain ⟨s,r⟩ := row
  obtain ⟨-,hs⟩ := mem_joined.mp h
  obtain ⟨service,-,rfl⟩ := Option.map_eq_some_iff.mp hs
  rfl

variable {series : CustomSeries}

theorem exposable_stored (hw : Sound w) {kind : Kind} (h : series ∈ storedCustom w kind) :
    Exposable series ∧ series.kind = kind := by
  obtain ⟨row,hrow,rfl⟩ := List.mem_map.mp (List.mem_dedup.mp h)
  obtain ⟨hmem,hkind⟩ := List.mem_filter.mp hrow
  obtain ⟨s,r⟩ := row
  obtain ⟨hr,hs⟩ := mem_joined.mp hmem
  obtain ⟨service,-,rfl⟩ := Option.map_eq_some_iff.mp hs
  have haccepted := hw.labels r hr
  exact ⟨⟨accepted_sortFields haccepted,sortFields_idem haccepted⟩,of_decide_eq_true hkind⟩

/-- Groups of one series are one group, when its windows have one order of labels. -/
theorem group_eq (hw : Sound w) (horder : OneOrder db w)
    {row' : CustomSeries × TaskCustomMetricWindow T} (hrow : row ∈ groupRows db w)
    (hrow' : row' ∈ groupRows db w) (hkind : row.2.kind = .counter)
    (h : row.1.sorted = row'.1.sorted) : row.1 = row'.1 := by
  obtain ⟨s,r⟩ := row
  obtain ⟨s',r'⟩ := row'
  obtain ⟨hr,hs⟩ := mem_joined.mp hrow
  obtain ⟨hr',hs'⟩ := mem_joined.mp hrow'
  have hseries : r.series w.services = r'.series w.services := by
    rw [series_group db (hw.labels r hr),series_group db (hw.labels r' hr'),hs,hs']
    exact congrArg some h
  have hlabels := horder r hr r' hr' hkind hseries
  obtain ⟨service,-,rfl⟩ := Option.map_eq_some_iff.mp hs
  obtain ⟨service',-,rfl⟩ := Option.map_eq_some_iff.mp hs'
  simp only [CustomSeries.sorted,CustomSeries.mk.injEq,TaskSeries.mk.injEq] at h ⊢
  exact ⟨h.1,h.2.1,h.2.2.1,hlabels⟩

theorem group_partition {row' : CustomSeries × TaskCustomMetricWindow T}
    (hrow : row ∈ groupRows db w) (hrow' : row' ∈ groupRows db w)
    (h : ((row.2.serviceId,row.2.taskName,row.2.instanceId),row.2.metricName,row.2.kind,
      db.jsonKey row.2.labels) = ((row'.2.serviceId,row'.2.taskName,row'.2.instanceId),
      row'.2.metricName,row'.2.kind,db.jsonKey row'.2.labels)) : row.1 = row'.1 := by
  obtain ⟨s,r⟩ := row
  obtain ⟨s',r'⟩ := row'
  obtain ⟨-,hs⟩ := mem_joined.mp hrow
  obtain ⟨-,hs'⟩ := mem_joined.mp hrow'
  simp only [Prod.mk.injEq] at h
  have heq : r.group db w.services = r'.group db w.services := by
    rw [TaskCustomMetricWindow.group,TaskCustomMetricWindow.group,h.1.1,h.1.2.1,h.1.2.2,h.2.1,
      h.2.2.1,h.2.2.2]
  exact Option.some.inj (hs.symm.trans (heq.trans hs'))

theorem storedCustom_eq (hw : Sound w) (db : Database) (kind : Kind) :
    storedCustom w kind = (((groupRows db w).filter fun row => row.2.kind = kind).map
      fun row => row.1.sorted).dedup := by
  rw [storedCustom,customRows_eq hw db,List.filter_map,List.map_map]
  congr 2
  refine List.filter_congr fun row hrow => ?_
  rw [Function.comp_apply,CustomSeries.sorted,group_kind hrow]

theorem customSum_eq (hw : Sound w) (db : Database) :
    customSum w series = total (fun row => row.1.sorted) (fun row => row.2.value)
      ((groupRows db w).filter fun row => row.2.kind = series.kind) series := by
  rw [customSum,total,total,customRows_eq hw db,List.filter_map,List.map_map,List.filter_filter]
  congr 2
  refine List.filter_congr fun row hrow => ?_
  rw [Function.comp_apply,eq_comm,Bool.and_eq_left_iff_imp]
  intro h
  have hkind : row.1.sorted.kind = series.kind := by rw [of_decide_eq_true h]
  exact decide_eq_true ((group_kind hrow).symm.trans hkind)

theorem customLabels_sorted (h : Exposable series) :
    sortFields (customLabels series) = series.labelSet := by
  rw [customLabels_eq h.accepted,CustomSeries.labelSet]

theorem fine_custom (hw : Sound w) {kind : Kind} (family : Family)
    {pairs : List (CustomSeries × CustomAggregate)} (value : CustomAggregate → Option ℚ)
    (hkeys : (pairs.map Prod.fst).Perm (storedCustom w kind)) :
    Fine family (sampled family (pairs.map fun pair => (customLabels pair.1,value pair.2))) := by
  have hstored : ∀ pair ∈ pairs, Exposable pair.1 ∧ pair.1.kind = kind := fun pair hpair =>
    exposable_stored hw (hkeys.subset (List.mem_map_of_mem hpair))
  have hnodup : (pairs.map Prod.fst).Nodup := hkeys.nodup_iff.mpr (List.nodup_dedup _)
  apply fine_sampled
  · refine (hnodup.of_map _).map_on ?_
    intro pair hpair pair' hpair' heq
    have h := hstored pair hpair
    have h' := hstored pair' hpair'
    rw [customLabels_sorted h.1,customLabels_sorted h'.1] at heq
    exact List.inj_on_of_nodup_map hnodup hpair hpair'
      (customLabels_injective h.1 h'.1 (h.2.trans h'.2.symm) heq)
  · intro pair hpair
    have h := (hstored pair hpair).1
    rw [customLabels_sorted h]
    exact proper_custom h.accepted

theorem namedTotals_eq (hw : Sound w) (db : Database) :
    groupTotals (fun row => row.1.sorted) (fun row => row.2.value)
      ((groupRows db w).filter fun row => row.2.kind = .counter) =
      (storedCustom w .counter).map fun series => (series,customSum w series) := by
  rw [groupTotals,← storedCustom_eq hw db]
  refine List.map_congr_left fun series hseries => ?_
  rw [customSum_eq hw db,(exposable_stored hw hseries).2]

theorem counterTotals_eq (hw : Sound w) (horder : OneOrder db w) :
    ((groupTotals Prod.fst (fun row => row.2.value)
      ((groupRows db w).filter fun row => row.2.kind = .counter)).map fun pair =>
        (pair.1.sorted,({kind := .counter,total := pair.2} : CustomAggregate))) =
      (storedCustom w .counter).map fun series =>
        (series,{kind := .counter,total := customSum w series}) := by
  have hrename : (groupTotals Prod.fst (fun row => row.2.value)
      ((groupRows db w).filter fun row => row.2.kind = .counter)).map
        (fun pair => (pair.1.sorted,pair.2)) =
      groupTotals (fun row => row.1.sorted) (fun row => row.2.value)
        ((groupRows db w).filter fun row => row.2.kind = .counter) := by
    refine groupTotals_rename (fun _ _ => rfl) ?_
    intro row hrow row' hrow'
    obtain ⟨hmem,hkind⟩ := List.mem_filter.mp hrow
    exact group_eq hw horder hmem (List.mem_of_mem_filter hrow') (of_decide_eq_true hkind)
  have hnamed := congrArg (List.map fun pair : CustomSeries × ℚ =>
    (pair.1,({kind := .counter,total := pair.2} : CustomAggregate))) hrename
  rw [namedTotals_eq hw db,List.map_map,List.map_map] at hnamed
  exact hnamed

variable [LinearOrder T]

/-- The gauges of the latest windows, one for each group of the database. -/
def gaugePairs (db : Database) (w : Plane T) : List (CustomSeries × CustomAggregate) :=
  (db.arrange (latestRows db (fun row => ((row.2.serviceId,row.2.taskName,row.2.instanceId),
      row.2.metricName,row.2.kind,db.jsonKey row.2.labels))
    (fun row => toLex (row.2.endedAt,row.2.createdAt))
    ((groupRows db w).filter fun row => row.2.kind = .gauge))).map fun row =>
      (row.1.sorted,{kind := .gauge,latestValue := row.2.value})

theorem gaugeKeys_iff (hw : Sound w) :
    series ∈ (gaugePairs db w).map Prod.fst ↔ series ∈ storedCustom w .gauge := by
  rw [gaugePairs,List.map_map,((db.perm _).map _).mem_iff,storedCustom_eq hw db,List.mem_dedup,
    List.mem_map,List.mem_map]
  constructor
  · intro ⟨row,hrow,heq⟩
    exact ⟨row,latestRows_subset hrow,heq⟩
  · intro ⟨row,hrow,heq⟩
    obtain ⟨found,hfound,hpartition⟩ := exists_latestRows db
      (fun row : CustomSeries × TaskCustomMetricWindow T =>
        ((row.2.serviceId,row.2.taskName,row.2.instanceId),row.2.metricName,row.2.kind,
          db.jsonKey row.2.labels)) (fun row => toLex (row.2.endedAt,row.2.createdAt)) hrow
    have hsame := group_partition (List.mem_of_mem_filter (latestRows_subset hfound))
      (List.mem_of_mem_filter hrow) hpartition
    refine ⟨found,hfound,?_⟩
    rw [Function.comp_apply,hsame]
    exact heq

theorem collectCustom_eq (hw : Sound w) (horder : OneOrder db w) :
    collectCustomMetrics db w = db.arrange ((storedCustom w .counter).map fun series =>
      (series,({kind := .counter,total := customSum w series} : CustomAggregate)))++
        collect (gaugePairs db w) := by
  have hkeys : ((storedCustom w .counter).map fun series =>
      (series,({kind := .counter,total := customSum w series} : CustomAggregate))).map Prod.fst =
        storedCustom w .counter := by
    rw [List.map_map]
    exact List.map_id _
  have hsplit : collectCustomMetrics db w = collect (db.arrange ((storedCustom w .counter).map
      fun series => (series,({kind := .counter,total := customSum w series} : CustomAggregate)))++
        gaugePairs db w) := by
    rw [← counterTotals_eq hw horder]
    rfl
  rw [hsplit,collect_append,collect_of_nodup]
  · rw [((db.perm _).map Prod.fst).nodup_iff,hkeys]
    exact List.nodup_dedup _
  · intro pair hpair hcounter
    rw [((db.perm _).map Prod.fst).mem_iff,hkeys] at hcounter
    have hgauge := (gaugeKeys_iff hw).mp (List.mem_map_of_mem hpair)
    cases (exposable_stored hw hcounter).2.symm.trans (exposable_stored hw hgauge).2

theorem gauge_kind : ∀ pair ∈ collect (gaugePairs db w), pair.2.kind = .gauge := by
  intro pair hpair
  obtain ⟨row,-,rfl⟩ := List.mem_map.mp (mem_of_collect hpair)
  rfl

theorem collectCounters_eq (hw : Sound w) (horder : OneOrder db w) :
    (collectCustomMetrics db w).filter (fun pair => pair.2.kind = .counter) =
      db.arrange ((storedCustom w .counter).map fun series =>
        (series,{kind := .counter,total := customSum w series})) := by
  rw [collectCustom_eq hw horder,List.filter_append,List.filter_eq_self.mpr,
    List.filter_eq_nil_iff.mpr,List.append_nil]
  · intro pair hpair
    rw [gauge_kind pair hpair]
    decide
  · intro pair hpair
    obtain ⟨series,-,rfl⟩ := List.mem_map.mp ((db.perm _).subset hpair)
    rfl

theorem collectGauges_eq (hw : Sound w) (horder : OneOrder db w) :
    (collectCustomMetrics db w).filter (fun pair => pair.2.kind = .gauge) =
      collect (gaugePairs db w) := by
  rw [collectCustom_eq hw horder,List.filter_append,List.filter_eq_nil_iff.mpr,
    List.filter_eq_self.mpr,List.nil_append]
  · exact fun pair hpair => decide_eq_true (gauge_kind pair hpair)
  · intro pair hpair
    obtain ⟨series,-,rfl⟩ := List.mem_map.mp ((db.perm _).subset hpair)
    simp

theorem customCounter_perm (hw : Sound w) (horder : OneOrder db w) :
    (samples db w .customCounter).Perm ((storedCustom w .counter).map fun series =>
      ⟨.customCounter,series.labelSet,customSum w series⟩) := by
  rw [samples,collectCounters_eq hw horder]
  refine (sampled_some _ _ (fun pair : CustomSeries × CustomAggregate => customLabels pair.1)
    fun pair => pair.2.total).trans (((db.perm _).map _).trans (.of_eq ?_))
  rw [List.map_map]
  refine List.map_congr_left fun series hseries => ?_
  rw [Function.comp_apply,customLabels_sorted (exposable_stored hw hseries).1]

theorem gaugeKeys_perm (hw : Sound w) (db : Database) :
    ((collect (gaugePairs db w)).map Prod.fst).Perm (storedCustom w .gauge) := by
  refine (List.perm_ext_iff_of_nodup (nodup_collect _) (List.nodup_dedup _)).mpr ?_
  exact fun series => mem_keys_collect.trans (gaugeKeys_iff hw)

theorem customGauge_perm (hw : Sound w) (horder : OneOrder db w) :
    ((samples db w .customGauge).map Sample.labels).Perm
      ((storedCustom w .gauge).map CustomSeries.labelSet) := by
  have hkeys := (gaugeKeys_perm hw db).map CustomSeries.labelSet
  have hlines := (sampled_some .customGauge (collect (gaugePairs db w))
    (fun pair => customLabels pair.1) fun pair => pair.2.latestValue).map Sample.labels
  rw [List.map_map] at hkeys hlines
  rw [samples,collectGauges_eq hw horder]
  refine hlines.trans (.trans (.of_eq ?_) hkeys)
  refine List.map_congr_left fun pair hpair => ?_
  have hstored := (gaugeKeys_perm hw db).subset (List.mem_map_of_mem hpair)
  exact customLabels_sorted (exposable_stored hw hstored).1

theorem fine_samples (hw : Sound w) (horder : OneOrder db w) (family : Family) :
    Fine family (samples db w family) := by
  have hall : ((collectTaskRuntimeMetrics db w).filter fun _ => true) =
    collectTaskRuntimeMetrics db w := List.filter_eq_self.mpr fun _ _ => rfl
  cases family with
  | succeeded =>
    have h := fine_task db w .succeeded (fun a => some (a.succeeded : ℚ)) fun _ => true
    rw [hall] at h
    exact h
  | failed =>
    have h := fine_task db w .failed (fun a => some (a.failed : ℚ)) fun _ => true
    rw [hall] at h
    exact h
  | inflight =>
    have h := fine_task db w .inflight (fun a => some (a.latestInflight : ℚ)) fun _ => true
    rw [hall] at h
    exact h
  | duration => exact fine_task db w .duration (fun a => a.latestAvgDurationMs) _
  | customCounter =>
    rw [samples,collectCounters_eq hw horder]
    have hkeys : ((db.arrange ((storedCustom w .counter).map fun series => (series,
        ({kind := .counter,total := customSum w series} : CustomAggregate)))).map Prod.fst).Perm
          (storedCustom w .counter) := by
      refine ((db.perm _).map Prod.fst).trans (.of_eq ?_)
      rw [List.map_map]
      exact List.map_id _
    exact fine_custom hw _ (fun a => some a.total) hkeys
  | customGauge =>
    rw [samples,collectGauges_eq hw horder]
    exact fine_custom hw _ (fun a => some a.latestValue) (gaugeKeys_perm hw db)

theorem faithful_of_sound (hw : Sound w) (horder : OneOrder db w) :
    Faithful db w where
  unique := nodup_heads (fine_samples hw horder)
  succeeded := succeeded_perm db w
  failed := failed_perm db w
  inflight := inflight_perm db w
  duration := fun _ => duration_stored hw
  durations := fun _ => duration_shown hw
  customCounter := customCounter_perm hw horder
  customGauge := customGauge_perm hw horder

theorem neverDecreases_of_grown {w' : Plane T} (hw : Sound w) (hw' : Sound w')
    (horder : OneOrder db w) (horder' : OneOrder db w') (hgrown : Grown w w') :
    NeverDecreases db w w' := by
  intro family hcounter line hline line' hline' hlabels
  cases family with
  | succeeded =>
    obtain ⟨series,-,rfl⟩ := List.mem_map.mp ((succeeded_perm db w).subset hline)
    obtain ⟨series',-,rfl⟩ := List.mem_map.mp ((succeeded_perm db w').subset hline')
    cases taskLabels_injective hlabels
    exact Nat.cast_le.mpr (hgrown.succeeded series)
  | failed =>
    obtain ⟨series,-,rfl⟩ := List.mem_map.mp ((failed_perm db w).subset hline)
    obtain ⟨series',-,rfl⟩ := List.mem_map.mp ((failed_perm db w').subset hline')
    cases taskLabels_injective hlabels
    exact Nat.cast_le.mpr (hgrown.failed series)
  | inflight => simp [Family.metricType] at hcounter
  | duration => simp [Family.metricType] at hcounter
  | customCounter =>
    obtain ⟨series,hs,rfl⟩ := List.mem_map.mp ((customCounter_perm hw horder).subset hline)
    obtain ⟨series',hs',rfl⟩ := List.mem_map.mp ((customCounter_perm hw' horder').subset hline')
    obtain ⟨hseries,hkind⟩ := exposable_stored hw hs
    obtain ⟨hseries',hkind'⟩ := exposable_stored hw' hs'
    cases customLabels_injective hseries hseries' (hkind.trans hkind'.symm) hlabels
    exact hgrown.custom series hkind
  | customGauge => simp [Family.metricType] at hcounter

end CustomFamilies

section Runs
variable {T : Type} {db : Database} {labelsHash : Labels → String}

/-- Sound tables in which the counters of a series are one group. -/
def Ordered (db : Database) (w : Plane T) : Prop := Sound w ∧ OneOrder db w

theorem ordered_init : Ordered db ({} : Plane T) :=
  ⟨sound_init,fun _ h => absurd h List.not_mem_nil⟩

variable [LinearOrder T]

theorem ordered_perform {w w' : Plane T} {act : Act T} (hw : Ordered db w)
    (h : w.perform db labelsHash act = some w') (hkeeps : Keeps db labelsHash w act) :
    Ordered db w' := by
  refine ⟨sound_perform hw.1 h,?_⟩
  cases act with
  | ingest request now =>
    cases h
    cases hresult : ingestMetricsRequest labelsHash w request now with
    | none => exact hw.2
    | some w' => exact hkeeps w' hresult
  | deleteBatch limit cutoff =>
    cases h
    exact hw.2

/-- When requests leave one order of labels to a series and batches delete windows that counted
nothing, the exposition is faithful at every moment and no counter decreases. -/
theorem faithful_and_monotone (db : Database) (labelsHash : Labels → String)
    {acts later : List (Act T)} {w w' : Plane T}
    (hkeeps : EachStep (Plane.perform db labelsHash) (Keeps db labelsHash) {} (acts++later))
    (hw : runs (Plane.perform db labelsHash) (fun _ _ => true) {} acts = some w)
    (hw' : runs (Plane.perform db labelsHash) (fun _ _ => true) w later = some w') :
    Faithful db w ∧ NeverDecreases db w w' := by
  obtain ⟨hordered,hlater⟩ := eachStep_append (fun _ _ _ => ordered_perform) ordered_init hkeeps hw
  have hgrown : Throughout (Plane.perform db labelsHash)
      (fun t => Ordered db t ∧ Grown w t) w later := by
    refine throughout_of_eachStep hlater ?_ (fun _ h => h) ⟨hordered,Grown.refl w⟩
    intro t act u ht hstep hkeep
    exact ⟨ordered_perform ht.1 hstep hkeep,ht.2.trans (grown_perform ht.1.1 hkeep hstep)⟩
  obtain ⟨hordered',hgrown'⟩ := hgrown.last hw'
  exact ⟨faithful_of_sound hordered.1 hordered.2,
    neverDecreases_of_grown hordered.1 hordered'.1 hordered.2 hordered'.2 hgrown'⟩

instance (w : Plane T) : Decidable (OneOrder db w) := by
  unfold OneOrder
  infer_instance

instance (w : Plane T) (act : Act T) : Decidable (Keeps db labelsHash w act) :=
  match act with
  | .ingest request now =>
    match h : ingestMetricsRequest labelsHash w request now with
    | none => isTrue fun w' hw' => by
        rw [h] at hw'
        cases hw'
    | some w' => decidable_of_iff (OneOrder db w') ⟨fun horder u hu => by
        rw [h] at hu
        cases hu
        exact horder,fun hkeeps => hkeeps w' h⟩
  | .deleteBatch limit cutoff => inferInstanceAs
      (Decidable (∀ row ∈ retentionBatch db w limit cutoff, row.succeeded = 0 ∧ row.failed = 0))

/-- A database that compares JSON as texts and returns rows as they were stored. -/
def desktop : Database where
  dialect := .sqlite
  arrange := id
  perm := fun _ => .refl _

def textHash (labels : Labels) : String := String.ofList (formatLabels (sortFields labels))

def window (windowId : String) (succeeded : ℕ) (customMetrics : List CustomMetricIngest) :
    TaskWindowIngest where
  taskName := "sync"
  windowId := windowId
  succeeded := succeeded
  failed := 0
  inflight := 0
  avgDurationMs := none
  customMetrics := customMetrics

def report (endedAt : ℕ) (tasks : List TaskWindowIngest) : MetricsIngestRequest ℕ where
  serviceName := "orders"
  environment := "prod"
  instanceId := 7
  endedAt := endedAt
  tasks := tasks

def rowsSent (labels : Labels) : CustomMetricIngest where
  name := "rows"
  kind := .counter
  value := 2
  labels := labels

/-- An idle window, a busy one, and a batch that deletes the idle one. -/
def idleDeleted : List (Act ℕ) := [
  .ingest (report 1 [window "w1" 0 []]) 1,
  .ingest (report 5 [window "w5" 3 [rowsSent [("region","eu")]]]) 5,
  .deleteBatch 10 3]

/-- The series stay faithful through the deletion. -/
theorem faithful_idleDeleted : ∃ w w',
    runs (Plane.perform desktop textHash) (fun _ _ => true) {} (idleDeleted.take 2) = some w ∧
    runs (Plane.perform desktop textHash) (fun _ _ => true) w (idleDeleted.drop 2) = some w' ∧
    Faithful desktop w ∧ NeverDecreases desktop w w' := by
  have hkeeps : EachStep (Plane.perform desktop textHash) (Keeps desktop textHash) {}
      (idleDeleted.take 2++idleDeleted.drop 2) :=
    eachStep_of_checks (p := fun w act => decide (Keeps desktop textHash w act))
      (fun _ _ => of_decide_eq_true) (by decide +kernel)
  exact ⟨_,_,rfl,rfl,faithful_and_monotone desktop textHash hkeeps rfl rfl⟩

theorem windowSum_le {w w' : Plane T} (h : NeverDecreases db w w') (series : TaskSeries)
    (hs : series ∈ storedTasks w) (hs' : series ∈ storedTasks w') :
    windowSum TaskMetricWindow.succeeded w series ≤
      windowSum TaskMetricWindow.succeeded w' series := by
  have hline := (succeeded_perm db w).mem_iff.mpr (List.mem_map.mpr ⟨series,hs,rfl⟩)
  have hline' := (succeeded_perm db w').mem_iff.mpr (List.mem_map.mpr ⟨series,hs',rfl⟩)
  exact Nat.cast_le.mp (h .succeeded rfl _ hline _ hline' rfl)

/-- Retention takes the windows that it deletes from a counter: two deliveries of five go. -/
theorem retention_decreases : ¬∀ (acts later : List (Act ℕ)) (w w' : Plane ℕ),
    runs (Plane.perform desktop textHash) (fun _ _ => true) {} acts = some w →
    runs (Plane.perform desktop textHash) (fun _ _ => true) w later = some w' →
    Faithful desktop w ∧ NeverDecreases desktop w w' := by
  intro h
  obtain ⟨-,hle⟩ := h [.ingest (report 1 [window "w1" 2 []]) 1,
    .ingest (report 5 [window "w5" 3 []]) 5] [.deleteBatch 10 3] _ _ rfl rfl
  have hsum := windowSum_le hle ⟨"orders","prod","sync",7⟩ (by decide +kernel)
    (by decide +kernel)
  exact absurd hsum (by decide +kernel)

/-- Two orders of the labels are two groups, of which one total is left. -/
example : (runs (Plane.perform desktop textHash) (fun _ _ => true) {} [
    .ingest (report 1 [window "w1" 0 [rowsSent [("region","eu"),("shard","a")]]]) 1,
    .ingest (report 5 [window "w5" 0 [rowsSent [("shard","a"),("region","eu")]]]) 5]).map
      (fun w => (collectCustomMetrics desktop w).map fun pair => pair.2.total) = some [2] := by
  decide +kernel

end Runs

end OneStep.ExposedSeries
