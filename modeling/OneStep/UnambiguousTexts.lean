import Mathlib.Data.List.Basic

/-!
# Texts that tell values apart

The texts of two values are separable when they are the same text only for the
same value, also with something behind them that does not go on with the text.
Runs of characters of one kind are separable, and so are lists of separable texts
with a comma between them and a closing character behind.
-/
namespace OneStep.UnambiguousTexts

section Runs
variable (inner : Char → Bool)

/-- What follows does not go on with a run. -/
def Stops (r : List Char) : Prop := ∀ c ∈ r.head?, inner c = false

/-- Equal texts, whatever follows them, are texts of one value. -/
def Separable {α : Type} (text : α → List Char) (a b : α) : Prop :=
  ∀ r s, Stops inner r → Stops inner s → text a++r = text b++s → a = b ∧ r = s

variable {inner}

theorem stops_cons {c : Char} {cs : List Char} (h : inner c = false) : Stops inner (c::cs) := by
  intro d hd
  cases hd
  exact h

/-- A run ends where something else begins. -/
theorem run_eq {cs ds r s : List Char} (hcs : ∀ c ∈ cs, inner c = true)
    (hds : ∀ d ∈ ds, inner d = true) (hr : Stops inner r) (hs : Stops inner s)
    (h : cs++r = ds++s) : cs = ds ∧ r = s := by
  induction cs generalizing ds with
  | nil =>
    cases ds with
    | nil => exact ⟨rfl,h⟩
    | cons d ds =>
      rw [List.nil_append] at h
      have hd := hr d (by rw [h]; rfl)
      rw [hds d List.mem_cons_self] at hd
      cases hd
  | cons c cs ih =>
    cases ds with
    | nil =>
      rw [List.nil_append] at h
      have hc := hs c (by rw [← h]; rfl)
      rw [hcs c List.mem_cons_self] at hc
      cases hc
    | cons d ds =>
      rw [List.cons_append,List.cons_append,List.cons.injEq] at h
      rw [List.forall_mem_cons] at hcs hds
      obtain ⟨hrest,hrs⟩ := ih hcs.2 hds.2 h.2
      exact ⟨congrArg₂ List.cons h.1 hrest,hrs⟩

end Runs

section Lists
variable {α : Type} {inner : Char → Bool} {text : α → List Char} {close : Char}

/-- The elements behind the first one. -/
def later (text : α → List Char) (as : List α) : List Char := as.flatMap fun a => ',':: text a

theorem intercalate_cons (a : α) (as : List α) :
    [','].intercalate ((a::as).map text) = text a++later text as := by
  induction as generalizing a with
  | nil => simp [later,List.intercalate]
  | cons b as ih =>
    have hrest := ih b
    simp only [List.intercalate,List.map_cons,List.intersperse_cons_cons,List.flatten_cons,later,
      List.flatMap_cons] at hrest ⊢
    rw [hrest]
    simp

theorem stops_later (hcomma : inner ',' = false) (hclose : inner close = false) (as : List α)
    (r : List Char) : Stops inner (later text as++close::r) := by
  cases as with
  | nil => exact stops_cons hclose
  | cons a as => exact stops_cons hcomma

theorem later_eq (hcomma : inner ',' = false) (hclose : inner close = false) (hne : close ≠ ',')
    {as bs : List α} {r s : List Char}
    (h : ∀ a ∈ as, ∀ b ∈ bs, Separable inner text a b)
    (heq : later text as++close::r = later text bs++close::s) : as = bs ∧ r = s := by
  induction as generalizing bs with
  | nil =>
    cases bs with
    | nil => exact ⟨rfl,(List.cons.inj heq).2⟩
    | cons b bs => exact absurd (List.cons.inj heq).1 hne
  | cons a as ih =>
    cases bs with
    | nil => exact absurd (List.cons.inj heq).1.symm hne
    | cons b bs =>
      have hhead := h a List.mem_cons_self b List.mem_cons_self
      simp only [later,List.flatMap_cons,List.cons_append,List.append_assoc,
        List.cons.injEq] at heq
      obtain ⟨hab,hrest⟩ := hhead _ _ (stops_later hcomma hclose as r)
        (stops_later hcomma hclose bs s) heq.2
      have htail : ∀ a ∈ as, ∀ b ∈ bs, Separable inner text a b := by
        intro a ha b hb
        exact h a (List.mem_cons_of_mem _ ha) b (List.mem_cons_of_mem _ hb)
      obtain ⟨has,hrs⟩ := ih htail hrest
      exact ⟨congrArg₂ List.cons hab has,hrs⟩

/-- Elements with commas between them, and a character that closes the list and
begins no element. -/
theorem separated_eq (hcomma : inner ',' = false) (hclose : inner close = false)
    (hne : close ≠ ',') {as bs : List α} {r s : List Char}
    (hopenLeft : ∀ a ∈ as, ∀ r s, text a++r ≠ close::s)
    (hopenRight : ∀ b ∈ bs, ∀ r s, text b++r ≠ close::s)
    (h : ∀ a ∈ as, ∀ b ∈ bs, Separable inner text a b)
    (heq : [','].intercalate (as.map text)++close::r = [','].intercalate (bs.map text)++close::s) :
    as = bs ∧ r = s := by
  cases as with
  | nil =>
    cases bs with
    | nil => exact ⟨rfl,(List.cons.inj heq).2⟩
    | cons b bs =>
      rw [intercalate_cons,List.append_assoc] at heq
      exact absurd heq.symm (hopenRight b List.mem_cons_self _ _)
  | cons a as =>
    cases bs with
    | nil =>
      rw [intercalate_cons,List.append_assoc] at heq
      exact absurd heq (hopenLeft a List.mem_cons_self _ _)
    | cons b bs =>
      rw [intercalate_cons,intercalate_cons,List.append_assoc,List.append_assoc] at heq
      obtain ⟨hab,hrest⟩ := h a List.mem_cons_self b List.mem_cons_self _ _
        (stops_later hcomma hclose as r) (stops_later hcomma hclose bs s) heq
      have htail : ∀ a ∈ as, ∀ b ∈ bs, Separable inner text a b := by
        intro a ha b hb
        exact h a (List.mem_cons_of_mem _ ha) b (List.mem_cons_of_mem _ hb)
      obtain ⟨has,hrs⟩ := later_eq hcomma hclose hne htail hrest
      exact ⟨congrArg₂ List.cons hab has,hrs⟩

end Lists

end OneStep.UnambiguousTexts
