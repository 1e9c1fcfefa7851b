import Mathlib.Data.Nat.Digits.Defs
import Mathlib.Tactic

/-!
# Numbers as digits

A number below a power of the base is written with a fixed count of digits, and
read back by taking that many. Bases up to sixteen are written with the lower
case letters; reading takes both cases.
-/
namespace OneStep.DigitText

def digitValue (b : ℕ) (c : Char) : Option ℕ :=
  let v :=
    if '0' ≤ c ∧ c ≤ '9' then some (c.toNat-48)
    else if 'a' ≤ c ∧ c ≤ 'f' then some (c.toNat-87)
    else if 'A' ≤ c ∧ c ≤ 'F' then some (c.toNat-55)
    else none
  v.filter fun d => decide (d < b)

/-- So many digits of a number, the first one in front. -/
def fixed (b : ℕ) : ℕ → ℕ → List Char
  | 0,_ => []
  | w+1,n => Nat.digitChar (n/b^w)::fixed b w (n%b^w)

/-- Reads so many digits behind a number, with what follows them. -/
def readFixed (b : ℕ) : ℕ → ℕ → List Char → Option (ℕ × List Char)
  | 0,n,cs => some (n,cs)
  | _+1,_,[] => none
  | w+1,n,c::cs => (digitValue b c).bind fun d => readFixed b w (n*b+d) cs

theorem digitValue_digitChar {b d : ℕ} (hb : b ≤ 16) (hd : d < b) :
    digitValue b (Nat.digitChar d) = some d := by
  have hvalue : digitValue 16 (Nat.digitChar d) = some d := by
    have hd16 : d < 16 := by omega
    interval_cases d <;> rfl
  unfold digitValue at hvalue ⊢
  dsimp only at hvalue ⊢
  rw [Option.filter_eq_some_iff] at hvalue ⊢
  exact ⟨hvalue.1,by simpa using hd⟩

theorem readFixed_fixed {b : ℕ} (hb : b ≤ 16) {w n : ℕ} (hn : n < b^w) (m : ℕ) (cs : List Char) :
    readFixed b w m (fixed b w n++cs) = some (m*b^w+n,cs) := by
  induction w generalizing n m with
  | zero =>
    have hzero : n = 0 := by simpa using hn
    rw [hzero,fixed,readFixed,List.nil_append]
    simp
  | succ w ih =>
    have hpos : 0 < b^w := by
      rcases Nat.eq_zero_or_pos (b^w) with hz | hp
      · rw [pow_succ,hz] at hn
        omega
      · exact hp
    have hdigit : n/b^w < b := by
      apply Nat.div_lt_of_lt_mul
      rw [pow_succ] at hn
      exact hn
    have hrest : n%b^w < b^w := Nat.mod_lt n hpos
    rw [fixed,List.cons_append,readFixed,digitValue_digitChar hb hdigit,Option.bind_some,ih hrest]
    have hsplit := Nat.div_add_mod n (b^w)
    congr 2
    rw [pow_succ]
    nlinarith

theorem length_fixed (b w n : ℕ) : (fixed b w n).length = w := by
  induction w generalizing n with
  | zero => rfl
  | succ w ih => rw [fixed,List.length_cons,ih]

theorem mem_fixed {b w n : ℕ} (hn : n < b^w) {c : Char} (hc : c ∈ fixed b w n) :
    ∃ d < b, c = Nat.digitChar d := by
  induction w generalizing n with
  | zero => cases hc
  | succ w ih =>
    have hpos : 0 < b^w := by
      rcases Nat.eq_zero_or_pos (b^w) with hz | hp
      · rw [pow_succ,hz] at hn
        omega
      · exact hp
    rw [fixed] at hc
    rcases List.mem_cons.mp hc with rfl | hc
    · refine ⟨n/b^w,?_,rfl⟩
      apply Nat.div_lt_of_lt_mul
      rw [pow_succ] at hn
      exact hn
    · exact ih (Nat.mod_lt n hpos) hc

theorem digitChar_ne {d : ℕ} (hd : d < 16) {c : Char}
    (hc : c ∈ ['+','-',':','.','_']) : Nat.digitChar d ≠ c := by
  intro heq
  rw [← heq] at hc
  interval_cases d <;> revert hc <;> decide

theorem fixed_ne {b w n : ℕ} (hb : b ≤ 16) (hn : n < b^w) {c d : Char} (hc : c ∈ fixed b w n)
    (hd : d ∈ ['+','-',':','.','_']) : c ≠ d := by
  obtain ⟨k,hk,rfl⟩ := mem_fixed hn hc
  exact digitChar_ne (by omega) hd

end OneStep.DigitText
