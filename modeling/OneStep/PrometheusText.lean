import OneStep.CanonicalJson

/-!
# Sample lines of the exposition

A line has the name of its family, the labels in braces and the value. Label names are plain
words and label values are escaped, so that what stands before the value tells the family and
the labels apart.
-/
namespace OneStep.PrometheusText
open CanonicalJson JsonText UnambiguousTexts

abbrev Labels := List (String × String)

section Text

def opening : Char := Char.ofNat 123

def closing : Char := Char.ofNat 125

def escapeLabelChar (c : Char) : List Char :=
  if c = '\\' then ['\\','\\']
  else if c = Char.ofNat 10 then ['\\','n']
  else if c = '"' then ['\\','"']
  else [c]

def escapeLabelValue (value : List Char) : List Char := value.flatMap escapeLabelChar

def labelText (label : String × String) : List Char :=
  label.1.toList++ '=':: '"'::(escapeLabelValue label.2.toList++['"'])

/-- `_format_labels` of labels in the order of their names. -/
def formatLabels (labels : Labels) : List Char :=
  if labels = [] then [] else opening::(separated (labels.map labelText)++[closing])

def isWordStart (c : Char) : Bool := c.isAlpha || c = '_'

def isWordChar (c : Char) : Bool := c.isAlphanum || c = '_'

/-- `CUSTOM_METRIC_LABEL_RE`. -/
def isLabelName : List Char → Bool
  | [] => false
  | c::cs => isWordStart c && cs.all isWordChar

end Text

section Reading

theorem escapeLabelChar_cases (c : Char) :
    (c = '\\' ∧ escapeLabelChar c = ['\\','\\']) ∨
    (c = Char.ofNat 10 ∧ escapeLabelChar c = ['\\','n']) ∨
    (c = '"' ∧ escapeLabelChar c = ['\\','"']) ∨
    (c ≠ '\\' ∧ c ≠ '"' ∧ escapeLabelChar c = [c]) := by
  unfold escapeLabelChar
  by_cases hslash : c = '\\'
  · exact .inl ⟨hslash,if_pos hslash⟩
  · by_cases hline : c = Char.ofNat 10
    · refine .inr (.inl ⟨hline,?_⟩)
      rw [if_neg hslash,if_pos hline]
    · by_cases hquote : c = '"'
      · refine .inr (.inr (.inl ⟨hquote,?_⟩))
        rw [if_neg hslash,if_neg hline,if_pos hquote]
      · refine .inr (.inr (.inr ⟨hslash,hquote,?_⟩))
        rw [if_neg hslash,if_neg hline,if_neg hquote]

theorem escapeLabelChar_eq {c d : Char} {r s : List Char}
    (h : escapeLabelChar c++r = escapeLabelChar d++s) : c = d ∧ r = s := by
  rcases escapeLabelChar_cases c with ⟨hc,he⟩ | ⟨hc,he⟩ | ⟨hc,he⟩ | ⟨hc,-,he⟩ <;>
  rcases escapeLabelChar_cases d with ⟨hd,hf⟩ | ⟨hd,hf⟩ | ⟨hd,hf⟩ | ⟨hd,-,hf⟩ <;>
  rw [he,hf] at h <;> simp at h <;> grind

theorem escapeLabelChar_quote (c : Char) (r s : List Char) :
    escapeLabelChar c++r ≠ '"'::s := by
  rcases escapeLabelChar_cases c with ⟨-,he⟩ | ⟨-,he⟩ | ⟨-,he⟩ | ⟨-,hc,he⟩ <;> rw [he]
  · simp
  · simp
  · simp
  · intro h
    exact hc (List.cons.inj h).1

theorem escapeLabelValue_eq {v w r s : List Char}
    (h : escapeLabelValue v++ '"'::r = escapeLabelValue w++ '"'::s) : v = w ∧ r = s := by
  unfold escapeLabelValue at h
  induction v generalizing w with
  | nil =>
    cases w with
    | nil => exact ⟨rfl,(List.cons.inj h).2⟩
    | cons d w =>
      rw [List.flatMap_cons,List.append_assoc] at h
      exact absurd h.symm (escapeLabelChar_quote d _ _)
  | cons c v ih =>
    rw [List.flatMap_cons,List.append_assoc] at h
    cases w with
    | nil => exact absurd h (escapeLabelChar_quote c _ _)
    | cons d w =>
      rw [List.flatMap_cons,List.append_assoc] at h
      obtain ⟨hcd,hrest⟩ := escapeLabelChar_eq h
      obtain ⟨hvw,hrs⟩ := ih hrest
      exact ⟨congrArg₂ List.cons hcd hvw,hrs⟩

theorem isLabelName_chars {cs : List Char} (h : isLabelName cs = true) :
    ∀ c ∈ cs, decide (c ≠ '=') = true := by
  have hword : ∀ c, isWordChar c = true → c ≠ '=' := by
    rintro c hc rfl
    cases hc
  cases cs with
  | nil => simp
  | cons c cs =>
    obtain ⟨hstart,hrest⟩ := Bool.and_eq_true_iff.mp h
    intro d hd
    refine decide_eq_true ?_
    rcases List.mem_cons.mp hd with rfl | hd
    · rintro rfl
      cases hstart
    · exact hword d (List.all_eq_true.mp hrest d hd)

/-- Labels with plain names. -/
def Named (labels : Labels) : Prop := ∀ label ∈ labels, isLabelName label.1.toList = true

theorem labelText_separable {a b : String × String} (ha : isLabelName a.1.toList = true)
    (hb : isLabelName b.1.toList = true) : Separable (fun _ => false) labelText a b := by
  intro r s _ _ h
  unfold labelText at h
  simp only [List.append_assoc,List.cons_append,List.nil_append] at h
  obtain ⟨hname,hrest⟩ := run_eq (isLabelName_chars ha) (isLabelName_chars hb)
    (stops_cons (by decide)) (stops_cons (by decide)) h
  obtain ⟨hvalue,hrs⟩ := escapeLabelValue_eq (List.cons.inj (List.cons.inj hrest).2).2
  exact ⟨Prod.ext (String.toList_injective hname) (String.toList_injective hvalue),hrs⟩

theorem labelText_open {label : String × String} (h : isLabelName label.1.toList = true)
    (r s : List Char) : labelText label++r ≠ closing::s := by
  cases hname : label.1.toList with
  | nil =>
    rw [hname] at h
    cases h
  | cons c cs =>
    rw [hname] at h
    obtain ⟨hstart,-⟩ := Bool.and_eq_true_iff.mp h
    rw [labelText,hname]
    intro heq
    rw [(List.cons.inj heq).1] at hstart
    cases hstart

theorem formatLabels_injective {labels others : Labels} (hlabels : Named labels)
    (hothers : Named others) (hne : labels ≠ []) (hne' : others ≠ [])
    (h : formatLabels labels = formatLabels others) : labels = others := by
  rw [formatLabels,if_neg hne,formatLabels,if_neg hne',List.cons.injEq] at h
  exact (separated_eq rfl rfl (by decide)
    (fun a ha r s => labelText_open (hlabels a ha) r s)
    (fun b hb r s => labelText_open (hothers b hb) r s)
    (fun a ha b hb => labelText_separable (hlabels a ha) (hothers b hb)) h.2).1

end Reading

end OneStep.PrometheusText
