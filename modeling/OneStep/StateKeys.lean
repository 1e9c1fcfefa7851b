import OneStep.CronFields
import OneStep.ScalarTexts
import OneStep.UnambiguousTexts
import Mathlib.Data.List.TakeWhile

/-!
# The default keys of SQL cursors

A key joins the names of a source with commas and colons, and the words of its predicate with
single spaces. Sources whose names hold neither separator are told apart by their keys.
-/
namespace OneStep.StateKeys
open CronFields UnambiguousTexts

abbrev Text := List Char

section Keys

/-- What `incremental` takes, as far as the key depends on it. -/
structure Incremental where
  table : Text
  key : Text
  cursor : List Text
  predicate : Option Text
  nonempty : cursor ≠ []

def Incremental.effectiveCursor (c : Incremental) : List Text :=
  if c.key ∈ c.cursor then c.cursor else c.cursor++[c.key]

/-- `normalized_where`. -/
def Incremental.normalized (c : Incremental) : Text :=
  [' '].intercalate (words (c.predicate.getD []))

/-- `where_fragment`; `sha1` is the hexadecimal digest of a text. -/
def Incremental.fragment (sha1 : Text → Text) (c : Incremental) : Text :=
  if c.normalized = [] then ['-']
  else if 64 < c.normalized.length then "sha1:".toList++sha1 c.normalized
  else c.normalized

/-- `_default_incremental_state_key`. -/
def Incremental.stateKey (sha1 : Text → Text) (c : Incremental) : Text :=
  c.table++ ':'::([','].intercalate c.effectiveCursor++ ':'::("key=".toList++(c.key++
    ':'::("where=".toList++c.fragment sha1))))

inductive EventKind where
  | insert | update | delete
  deriving DecidableEq

def aliases : List (Text × EventKind) := [("write".toList,.insert),("create".toList,.insert),
  ("insert".toList,.insert),("update".toList,.update),("delete".toList,.delete),("remove".toList,.delete)]

def normalizeBinlogEventName (event : Text) : Option EventKind :=
  aliases.lookup (lower (ScalarTexts.strip isSpace event))

/-- What `binlog` takes, as far as the key depends on it. -/
structure Binlog where
  schemas : List Text
  tables : List Text
  events : List Text
  nonempty : events ≠ []
  accepted : ∀ event ∈ events, (normalizeBinlogEventName event).isSome = true

def Binlog.kinds (b : Binlog) : List EventKind := b.events.filterMap normalizeBinlogEventName

/-- A list of names, or a star if there is none. -/
def listed (names : List Text) : Text := [','].intercalate (if names = [] then [['*']] else names)

/-- `_default_binlog_state_key`. -/
def Binlog.stateKey (b : Binlog) : Text :=
  "binlog".toList++ ':'::("schemas=".toList++(listed b.schemas++ ':'::("tables=".toList++
    (listed b.tables++ ':'::("events=".toList++listed b.events)))))

end Keys

section Names

/-- A character of a name that is no separator. -/
def inner (c : Char) : Bool := c != ',' && c != ':'

abbrev PlainName (name : Text) : Prop := ',' ∉ name ∧ ':' ∉ name

/-- The names hold no separator, and the predicate does not look like what stands for another. -/
structure Incremental.Plain (c : Incremental) : Prop where
  table : ':' ∉ c.table
  cursor : ∀ name ∈ c.effectiveCursor, PlainName name
  predicate : c.normalized ≠ ['-'] ∧ ¬"sha1:".toList <+: c.normalized

structure Binlog.Plain (b : Binlog) : Prop where
  schemas : ∀ name ∈ b.schemas, PlainName name
  tables : ∀ name ∈ b.tables, PlainName name
  starred : b.schemas ≠ [['*']] ∧ b.tables ≠ [['*']]

theorem PlainName.inner {name : Text} (h : PlainName name) : ∀ c ∈ name, inner c = true := by
  intro c hc
  rw [StateKeys.inner,Bool.and_eq_true,bne_iff_ne,bne_iff_ne]
  exact ⟨fun heq => h.1 (heq ▸ hc),fun heq => h.2 (heq ▸ hc)⟩

theorem upTo_colon {front front' back back' : Text} (h : ':' ∉ front) (h' : ':' ∉ front')
    (heq : front++ ':'::back = front'++ ':'::back') : front = front' ∧ back = back' := by
  have hne : ∀ {text : Text}, ':' ∉ text → ∀ c ∈ text, (c != ':') = true :=
    fun hnot c hc => bne_iff_ne.mpr fun hcolon => hnot (hcolon ▸ hc)
  obtain ⟨hfront,hrest⟩ := run_eq (hne h) (hne h') (stops_cons rfl) (stops_cons rfl) heq
  exact ⟨hfront,(List.cons.inj hrest).2⟩

/-- Lists of plain names are told by their joined text. -/
theorem names_eq {names names' : List Text} {back back' : Text} (hne : names ≠ []) (hne' : names' ≠ [])
    (h : ∀ name ∈ names, PlainName name) (h' : ∀ name ∈ names', PlainName name)
    (heq : [','].intercalate names++ ':'::back = [','].intercalate names'++ ':'::back') :
    names = names' ∧ back = back' := by
  obtain ⟨name,rest,rfl⟩ := List.exists_cons_of_ne_nil hne
  obtain ⟨name',rest',rfl⟩ := List.exists_cons_of_ne_nil hne'
  rw [List.forall_mem_cons] at h h'
  rw [← List.map_id (name::rest),← List.map_id (name'::rest'),intercalate_cons,intercalate_cons,
    List.append_assoc,List.append_assoc] at heq
  obtain ⟨hname,hlater⟩ := run_eq h.1.inner h'.1.inner (stops_later rfl rfl rest back)
    (stops_later rfl rfl rest' back') heq
  obtain ⟨hrest,hback⟩ := later_eq rfl rfl (by decide) (fun a ha b hb r s hr hs hab =>
    run_eq (h.2 a ha).inner (h'.2 b hb).inner hr hs hab) hlater
  exact ⟨congrArg₂ List.cons hname hrest,hback⟩

theorem listed_eq {names names' : List Text} {back back' : Text}
    (h : (∀ name ∈ names, PlainName name) ∧ names ≠ [['*']])
    (h' : (∀ name ∈ names', PlainName name) ∧ names' ≠ [['*']])
    (heq : listed names++ ':'::back = listed names'++ ':'::back') : names = names' ∧ back = back' := by
  have hstar : PlainName ['*'] := by decide
  have hlist : ∀ {names : List Text}, (∀ name ∈ names, PlainName name) →
      (if names = [] then [['*']] else names) ≠ [] ∧
        ∀ name ∈ if names = [] then [['*']] else names, PlainName name := by
    intro names hplain
    split
    · exact ⟨List.cons_ne_nil _ _,List.forall_mem_singleton.mpr hstar⟩
    · next hne => exact ⟨hne,hplain⟩
  obtain ⟨hsame,hback⟩ := names_eq (hlist h.1).1 (hlist h'.1).1 (hlist h.1).2 (hlist h'.1).2 heq
  refine ⟨?_,hback⟩
  split at hsame
  · next hnil =>
      split at hsame
      · next hnil' => exact hnil.trans hnil'.symm
      · exact absurd hsame.symm h'.2
  · split at hsame
    · exact absurd hsame h.2
    · exact hsame

end Names

section Parts
variable {sha1 : Text → Text} {c c' : Incremental}

theorem key_mem (c : Incremental) : c.key ∈ c.effectiveCursor := by
  unfold Incremental.effectiveCursor
  split
  · next hmem => exact hmem
  · exact List.mem_append_right _ (List.mem_singleton_self _)

/-- The fragment of a plain predicate tells its words. -/
theorem fragment_eq (hsha : Function.Injective sha1) (h : c.Plain) (h' : c'.Plain)
    (heq : c.fragment sha1 = c'.fragment sha1) : c.normalized = c'.normalized := by
  have hhash : ∀ {c : Incremental} {text : Text}, c.Plain → c.normalized ≠ "sha1:".toList++text :=
    fun hplain heq => hplain.predicate.2 ⟨_,heq.symm⟩
  unfold Incremental.fragment at heq
  split at heq
  · next hnil =>
      split at heq
      · next hnil' => exact hnil.trans hnil'.symm
      · split at heq
        · cases heq
        · exact absurd heq.symm h'.predicate.1
  · split at heq
    · split at heq
      · cases heq
      · split at heq
        · exact hsha (List.append_cancel_left heq)
        · exact absurd heq.symm (hhash h')
    · split at heq
      · exact absurd heq h.predicate.1
      · split at heq
        · exact absurd heq (hhash h)
        · exact heq

theorem mem_strip {p : Char → Bool} {text : Text} {d : Char} (h : d ∈ text) (hd : p d = false) :
    d ∈ ScalarTexts.strip p text := by
  have hdrop : ∀ {text : Text}, d ∈ text → d ∈ text.dropWhile p := by
    intro text hmem
    rw [← @List.takeWhile_append_dropWhile _ p text] at hmem
    rcases List.mem_append.mp hmem with htake | hrest
    · rw [List.mem_takeWhile_imp htake] at hd
      cases hd
    · exact hrest
  exact List.mem_reverse.mpr (hdrop (List.mem_reverse.mpr (hdrop h)))

/-- An event that is accepted holds no separator. -/
theorem plain_event {event : Text} (h : (normalizeBinlogEventName event).isSome = true) :
    PlainName event := by
  obtain ⟨kind,hkind⟩ := Option.isSome_iff_exists.mp h
  obtain ⟨before,after,hsplit,-⟩ := List.lookup_eq_some_iff.mp hkind
  have hknown : (lower (ScalarTexts.strip isSpace event),kind) ∈ aliases := by
    rw [hsplit]
    exact List.mem_append_right _ List.mem_cons_self
  have hnone : ∀ d, isSpace d = false → d.toLower = d → (∀ known ∈ aliases, d ∉ known.1) → d ∉ event := by
    intro d hspace hlower hnot hd
    exact hnot _ hknown (List.mem_map.mpr ⟨d,mem_strip hd hspace,hlower⟩)
  exact ⟨hnone ',' (by decide) (by decide) (by decide),hnone ':' (by decide) (by decide) (by decide)⟩

end Parts

section Sources

/-- Equal keys of plain sources are keys of one source: names and lists are the same, and the
predicates are up to the spaces between their words. -/
theorem keys_tell_sources (sha1 : Text → Text) (hsha : Function.Injective sha1) :
    (∀ c c' : Incremental, c.Plain → c'.Plain → c.stateKey sha1 = c'.stateKey sha1 →
      c.table = c'.table ∧ c.effectiveCursor = c'.effectiveCursor ∧ c.key = c'.key ∧
        c.normalized = c'.normalized) ∧
    ∀ b b' : Binlog, b.Plain → b'.Plain → b.stateKey = b'.stateKey →
      b.schemas = b'.schemas ∧ b.tables = b'.tables ∧ b.kinds = b'.kinds := by
  constructor
  · intro c c' h h' heq
    obtain ⟨htable,hrest⟩ := upTo_colon h.table h'.table heq
    have hne : ∀ c : Incremental, c.effectiveCursor ≠ [] := fun c => List.ne_nil_of_mem (key_mem c)
    obtain ⟨hcursor,hrest⟩ := names_eq (hne c) (hne c') h.cursor h'.cursor hrest
    obtain ⟨hkey,hrest⟩ := upTo_colon (h.cursor _ (key_mem c)).2 (h'.cursor _ (key_mem c')).2
      (List.append_cancel_left hrest)
    exact ⟨htable,hcursor,hkey,fragment_eq hsha h h' (List.append_cancel_left hrest)⟩
  · intro b b' h h' heq
    have hevents : ∀ b : Binlog, (∀ event ∈ b.events, PlainName event) ∧ b.events ≠ [['*']] := by
      intro b
      refine ⟨fun event hevent => plain_event (b.accepted event hevent),fun hstar => ?_⟩
      have hnone := b.accepted ['*'] (by rw [hstar]; exact List.mem_singleton_self _)
      exact absurd hnone (by decide)
    obtain ⟨-,hrest⟩ := upTo_colon (by decide) (by decide) heq
    obtain ⟨hschemas,hrest⟩ := listed_eq ⟨h.schemas,h.starred.1⟩ ⟨h'.schemas,h'.starred.1⟩
      (List.append_cancel_left hrest)
    obtain ⟨htables,hrest⟩ := listed_eq ⟨h.tables,h.starred.2⟩ ⟨h'.tables,h'.starred.2⟩
      (List.append_cancel_left hrest)
    obtain ⟨hsame,-⟩ := @listed_eq _ _ [] [] (hevents b) (hevents b')
      (by rw [List.append_cancel_left hrest])
    exact ⟨hschemas,htables,by rw [Binlog.kinds,hsame,Binlog.kinds]⟩

end Sources

section Samples

def source (table first : String) (cursor : List String) (predicate : Option String) : Incremental where
  table := table.toList
  key := "id".toList
  cursor := first.toList::cursor.map String.toList
  predicate := predicate.map String.toList
  nonempty := List.cons_ne_nil _ _

def binlogOf (schemas : List String) : Binlog where
  schemas := schemas.map String.toList
  tables := []
  events := ["insert".toList]
  nonempty := List.cons_ne_nil _ _
  accepted := by decide

/-- Blanks do not tell two sources apart. -/
theorem orders_same : (source "orders" "at" [] (some "total > 1")).normalized =
    (source "orders" "at" [] (some " total  > 1")).normalized := by
  obtain ⟨hincremental,-⟩ := keys_tell_sources id Function.injective_id
  exact (hincremental (source "orders" "at" [] (some "total > 1"))
    (source "orders" "at" [] (some " total  > 1")) ⟨by decide,by decide,by decide⟩
    ⟨by decide,by decide,by decide⟩ (by decide)).2.2.2

/-- The text between the first two quotes. -/
def literal (c : Incremental) : Text := (cut '\'' (cut '\'' (c.predicate.getD [])).2).1

/-- A comma in a column, a colon in a table, the spaces of a literal, a predicate that is a dash,
and a schema that is a star. -/
theorem keys_collide :
    ((source "t" "a,b" [] none).stateKey id = (source "t" "a" ["b"] none).stateKey id ∧
      (source "t" "a,b" [] none).effectiveCursor ≠ (source "t" "a" ["b"] none).effectiveCursor) ∧
    ((source "t:a" "b" [] none).stateKey id = (source "t" "a:b" [] none).stateKey id ∧
      (source "t:a" "b" [] none).table ≠ (source "t" "a:b" [] none).table) ∧
    ((source "t" "a" [] (some "b = 'c  d'")).stateKey id =
        (source "t" "a" [] (some "b = 'c d'")).stateKey id ∧
      literal (source "t" "a" [] (some "b = 'c  d'")) ≠ literal (source "t" "a" [] (some "b = 'c d'"))) ∧
    ((source "t" "a" [] (some "-")).stateKey id = (source "t" "a" [] none).stateKey id ∧
      (source "t" "a" [] (some "-")).normalized ≠ (source "t" "a" [] none).normalized) ∧
    (binlogOf []).stateKey = (binlogOf ["*"]).stateKey ∧
      (binlogOf []).schemas ≠ (binlogOf ["*"]).schemas := by
  decide

end Samples

end OneStep.StateKeys
