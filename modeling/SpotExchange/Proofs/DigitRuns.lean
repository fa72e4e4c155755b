import Mathlib.Data.List.Basic
import SpotExchange.Digits

/-!
Runs of digits in a text: a number is told by its digits, the shortest list as well as
one of a given length, and the digits by the characters they are written with.
-/

namespace SpotExchange

def AreDigits (ds : List Nat) : Prop := ∀ d ∈ ds, d < 10

theorem AreDigits.tail {d : Nat} {ds : List Nat} (h : AreDigits (d :: ds)) : AreDigits ds :=
  fun e member => h e (List.mem_cons_of_mem d member)

/-- A text that no digit begins. -/
def EndsDigits (text : List Char) : Prop := ∀ c ∈ text.head?, digitValue? c = none

def BeginsWithDigit (text : List Char) : Prop := ∃ d < 10, ∃ rest, text = digitChar d :: rest

theorem appendDigits_append (value : Nat) (front back : List Nat) :
    appendDigits value (front ++ back) = appendDigits (appendDigits value front) back := by
  simp [appendDigits]

theorem appendDigits_cons (value d : Nat) (ds : List Nat) :
    appendDigits value (d :: ds) = appendDigits (value * 10 + d) ds := rfl

theorem le_appendDigits (value : Nat) (ds : List Nat) : value ≤ appendDigits value ds := by
  induction ds generalizing value with
  | nil => exact Nat.le_refl _
  | cons d ds ih =>
    have := ih (value * 10 + d)
    rw [appendDigits_cons]
    omega

theorem ofDigits_append_zeros (ds : List Nat) (count : Nat) :
    ofDigits (ds ++ List.replicate count 0) = ofDigits ds * tenTo count := by
  induction count with
  | zero => simp [tenTo]
  | succ count ih =>
    have : List.replicate (count + 1) 0 = List.replicate count 0 ++ [0] :=
      List.replicate_succ'
    rw [this, ← List.append_assoc, ofDigits, appendDigits_append, ← ofDigits, ih, tenTo_add,
      ← Nat.mul_assoc]
    rfl

section shortest

theorem digits_areDigits (n : Nat) : AreDigits (digits n) := by
  fun_induction digits n with
  | case1 n small => simpa [AreDigits] using small
  | case2 n large ih =>
    intro d member
    rcases List.mem_append.1 member with front | last
    · exact ih d front
    · obtain rfl := List.mem_singleton.1 last
      omega

@[simp] theorem ofDigits_digits (n : Nat) : ofDigits (digits n) = n := by
  fun_induction digits n with
  | case1 n small => simp [ofDigits, appendDigits]
  | case2 n large ih =>
    rw [ofDigits, appendDigits_append, ← ofDigits, ih]
    simp only [appendDigits, List.foldl_cons, List.foldl_nil]
    omega

theorem digits_ne_nil (n : Nat) : digits n ≠ [] := by
  fun_cases digits n <;> simp

/-- Only zero begins with a zero. -/
theorem head_digits (n : Nat) : (digits n).head? = some 0 ↔ n = 0 := by
  fun_induction digits n with
  | case1 n small => simp
  | case2 n large ih =>
    have below : n / 10 ≠ 0 := by omega
    rw [List.head?_append_of_ne_nil _ (digits_ne_nil _), ih]
    exact ⟨fun zero => absurd zero below, fun zero => by omega⟩

end shortest

section fixed

@[simp] theorem length_lastDigits (count n : Nat) : (lastDigits count n).length = count := by
  induction count generalizing n with
  | zero => rfl
  | succ count ih => simp [lastDigits, ih]

theorem lastDigits_areDigits (count n : Nat) : AreDigits (lastDigits count n) := by
  induction count generalizing n with
  | zero => simp [lastDigits, AreDigits]
  | succ count ih =>
    intro d member
    rcases List.mem_append.1 member with front | last
    · exact ih (n / 10) d front
    · obtain rfl := List.mem_singleton.1 last
      omega

theorem appendDigits_lastDigits (count n : Nat) :
    appendDigits (n / tenTo count) (lastDigits count n) = n := by
  induction count generalizing n with
  | zero => simp [lastDigits, appendDigits, tenTo]
  | succ count ih =>
    have whole : n / tenTo (count + 1) = n / 10 / tenTo count := by
      rw [Nat.div_div_eq_div_mul, Nat.add_comm, tenTo_add]
      rfl
    rw [whole, lastDigits, appendDigits_append, ih]
    simp only [appendDigits, List.foldl_cons, List.foldl_nil]
    omega

theorem ofDigits_lastDigits {count n : Nat} (small : n < tenTo count) :
    ofDigits (lastDigits count n) = n := by
  have := appendDigits_lastDigits count n
  rwa [Nat.div_eq_of_lt small] at this

end fixed

section characters

theorem digitValue?_digitChar {d : Nat} (small : d < 10) : digitValue? (digitChar d) = some d := by
  have : ∀ d < 10, digitValue? (digitChar d) = some d := by decide
  exact this d small

theorem digitChar_ne {d : Nat} {c : Char} (small : d < 10) (other : digitValue? c = none) :
    digitChar d ≠ c := by
  rintro rfl
  simp [digitValue?_digitChar small] at other

variable {ds : List Nat} {rest : List Char}

theorem all_digits (digits : AreDigits ds) :
    ∀ c ∈ ds.map digitChar, (digitValue? c).isSome = true := by
  intro c member
  obtain ⟨d, digit, rfl⟩ := List.mem_map.1 member
  rw [digitValue?_digitChar (digits d digit)]
  rfl

/-- Digits and what follows them, taken apart where the digits end. -/
theorem takeWhile_digits (digits : AreDigits ds) (ends : EndsDigits rest) :
    (ds.map digitChar ++ rest).takeWhile (fun c => (digitValue? c).isSome) = ds.map digitChar := by
  rw [List.takeWhile_append_of_pos (all_digits digits)]
  cases rest with
  | nil => simp
  | cons c rest => simp [ends c rfl]

theorem dropWhile_digits (digits : AreDigits ds) (ends : EndsDigits rest) :
    (ds.map digitChar ++ rest).dropWhile (fun c => (digitValue? c).isSome) = rest := by
  rw [List.dropWhile_append_of_pos (all_digits digits)]
  cases rest with
  | nil => rfl
  | cons c rest => simp [ends c rfl]

theorem filterMap_digits (digits : AreDigits ds) :
    (ds.map digitChar).filterMap digitValue? = ds := by
  induction ds with
  | nil => rfl
  | cons d ds ih =>
    have first := digitValue?_digitChar (digits d (List.mem_cons_self))
    simp [first, ih digits.tail]

end characters

section beginnings
variable {ds : List Nat} {text : List Char}

theorem AreDigits.begin (digits : AreDigits ds) (some : ds ≠ []) :
    BeginsWithDigit (ds.map digitChar) := by
  cases ds with
  | nil => exact absurd rfl some
  | cons d ds => exact ⟨d, digits d List.mem_cons_self, ds.map digitChar, rfl⟩

theorem numeral_begins (n : Nat) : BeginsWithDigit (numeral n) :=
  (digits_areDigits n).begin (digits_ne_nil n)

theorem BeginsWithDigit.append (begins : BeginsWithDigit text) (rest : List Char) :
    BeginsWithDigit (text ++ rest) := by
  obtain ⟨d, small, tail, rfl⟩ := begins
  exact ⟨d, small, tail ++ rest, rfl⟩

theorem BeginsWithDigit.ne_cons (begins : BeginsWithDigit text) {mark : Char}
    (other : digitValue? mark = none) (rest : List Char) : text ≠ mark :: rest := by
  obtain ⟨d, small, tail, rfl⟩ := begins
  exact fun same => digitChar_ne small other (List.cons.inj same).1

end beginnings

end SpotExchange
