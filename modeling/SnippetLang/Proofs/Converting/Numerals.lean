import Mathlib.Data.List.Induction
import SnippetLang.Routine.Invocation

/-!
# Texts that denote numbers

A text denotes a number if it is a numeral with blanks around it: one sign or none, and then digits
that have the number as their value.  Nothing is said here about how far the digits go.  A value that
is too large for 32 bits is that of no number, so a text with such digits denotes nothing.

The conversion from text answers exactly the number that its argument denotes, and what the conversion
to text writes denotes the number that was written.
-/

namespace SnippetLang

namespace Text

/-! ### Numerals -/

/-- Digits and their value in decimal: each digit counts once, and what stands before it ten times. -/
inductive Decimal : List Char → Nat → Prop where
  | digit {d : Char} : isDigit d = true → Decimal [d] (d.toNat - '0'.toNat)
  | more {ds : List Char} {n : Nat} {d : Char} :
      Decimal ds n → isDigit d = true → Decimal (ds ++ [d]) (10 * n + (d.toNat - '0'.toNat))

/-- Digits with a sign in front of them or none, and their value. -/
inductive Numeral : List Char → Int → Prop where
  | unsigned {ds : List Char} {n : Nat} : Decimal ds n → Numeral ds n
  | plus {ds : List Char} {n : Nat} : Decimal ds n → Numeral ('+' :: ds) n
  | minus {ds : List Char} {n : Nat} : Decimal ds n → Numeral ('-' :: ds) (-n)

/-- A text is a numeral with blanks around it, and the number is the value of the numeral. -/
def Denotes (s : String) (n : Int32) : Prop :=
  ∃ front numeral back, s.toList = front ++ (numeral ++ back) ∧
    (∀ c ∈ front, isBlank c = true) ∧ (∀ c ∈ back, isBlank c = true) ∧ Numeral numeral n.toInt

theorem toNat_of_isDigit {c : Char} (h : isDigit c = true) : 48 ≤ c.toNat ∧ c.toNat ≤ 57 := by
  simp only [isDigit, Bool.and_eq_true, decide_eq_true_eq, Char.le_def, UInt32.le_iff_toNat_le] at h
  exact h

theorem isDigit_of_core {c : Char} (h : c.isDigit = true) : isDigit c = true := h

theorem digitsValue_concat (ds : List Char) (d : Char) :
    digitsValue (ds ++ [d]) = 10 * digitsValue ds + (d.toNat - '0'.toNat) := by
  simp only [digitsValue, Nat.ofDigitChars_append, Nat.ofDigitChars_cons, Nat.ofDigitChars_nil]

/-- Digits have exactly one value, and without digits there is none. -/
theorem decimal_iff {ds : List Char} {n : Nat} :
    Decimal ds n ↔ ds ≠ [] ∧ (∀ c ∈ ds, isDigit c = true) ∧ digitsValue ds = n := by
  constructor
  · intro h
    induction h with
    | @digit d hd =>
      refine ⟨List.cons_ne_nil _ _, by simpa using hd, ?_⟩
      simpa [digitsValue] using digitsValue_concat [] d
    | @more ds n d _ hd ih =>
      obtain ⟨-, hds, rfl⟩ := ih
      refine ⟨by simp, ?_, digitsValue_concat ds d⟩
      intro c hc
      rcases List.mem_append.1 hc with hc | hc
      · exact hds c hc
      · obtain rfl := List.mem_singleton.1 hc
        exact hd
  · rintro ⟨hne, hds, rfl⟩
    induction ds using List.reverseRecOn with
    | nil => exact absurd rfl hne
    | append_singleton ds d ih =>
      obtain ⟨hds, hd⟩ := List.forall_mem_append.1 hds
      have hd := hd d (List.mem_singleton_self d)
      rw [digitsValue_concat]
      by_cases hnil : ds = []
      · subst hnil
        simpa [digitsValue] using Decimal.digit hd
      · exact .more (ih hnil hds) hd

/-! ### Reading numerals -/

/-- The digits of a number that fits are read as that number, and nothing else is read. -/
theorem readDigits?_eq_some_iff {negative : Bool} {ds : List Char} {n : Int32} :
    readDigits? negative ds = some n ↔
      ∃ value : Nat, Decimal ds value ∧ n.toInt = if negative then -(value : Int) else value := by
  simp only [decimal_iff, readDigits?]
  by_cases hdigits : ds ≠ [] ∧ ∀ c ∈ ds, isDigit c = true
  · obtain ⟨hne, hall⟩ := hdigits
    have hguard : (ds.isEmpty || !ds.all isDigit) = false := by simpa [hne] using hall
    rw [if_neg (by simp [hguard])]
    generalize hvalue : (if negative then -(digitsValue ds : Int) else digitsValue ds) = value
    have hlow := Int32.le_toInt n
    have hhigh := Int32.toInt_lt n
    constructor
    · intro h
      split at h
      · next hfits =>
        obtain rfl := Option.some.inj h
        refine ⟨digitsValue ds, ⟨hne, hall, rfl⟩, ?_⟩
        rw [hvalue]
        exact Int32.toInt_ofInt_of_le hfits.1 (by omega)
      · cases h
    · rintro ⟨_, ⟨-, -, rfl⟩, hn⟩
      rw [hvalue] at hn
      rw [if_pos (by omega), ← hn, Int32.ofInt_toInt]
  · have hguard : (ds.isEmpty || !ds.all isDigit) = true := by
      by_contra h
      exact hdigits (by simpa using h)
    rw [if_pos hguard]
    constructor
    · intro h
      cases h
    · rintro ⟨_, ⟨hne, hall, -⟩, -⟩
      exact absurd ⟨hne, hall⟩ hdigits

theorem Decimal.exists_cons {ds : List Char} {n : Nat} (h : Decimal ds n) :
    ∃ c cs, ds = c :: cs ∧ isDigit c = true := by
  obtain ⟨hne, hall, -⟩ := decimal_iff.1 h
  obtain ⟨c, cs, rfl⟩ := List.exists_cons_of_ne_nil hne
  exact ⟨c, cs, rfl, hall c List.mem_cons_self⟩

/-- A text that has no blanks around it is read as the value of the numeral that it is. -/
theorem readInt?_eq_some_iff {cs : List Char} {n : Int32} :
    readInt? cs = some n ↔ Numeral cs n.toInt := by
  constructor
  · intro h
    unfold readInt? at h
    split at h
    · obtain ⟨value, hdigits, hn⟩ := readDigits?_eq_some_iff.1 h
      rw [hn]
      exact .minus hdigits
    · obtain ⟨value, hdigits, hn⟩ := readDigits?_eq_some_iff.1 h
      rw [hn]
      exact .plus hdigits
    · obtain ⟨value, hdigits, hn⟩ := readDigits?_eq_some_iff.1 h
      rw [hn]
      exact .unsigned hdigits
  · intro h
    generalize hvalue : n.toInt = value at h
    cases h with
    | unsigned h =>
      obtain ⟨c, ds, rfl, hc⟩ := h.exists_cons
      unfold readInt?
      -- a digit is neither of the two signs
      split
      · next heq =>
        obtain ⟨rfl, -⟩ := List.cons.inj heq
        cases hc
      · next heq =>
        obtain ⟨rfl, -⟩ := List.cons.inj heq
        cases hc
      · exact readDigits?_eq_some_iff.2 ⟨_, h, hvalue⟩
    | plus h => exact readDigits?_eq_some_iff.2 ⟨_, h, hvalue⟩
    | minus h => exact readDigits?_eq_some_iff.2 ⟨_, h, hvalue⟩

/-! ### Blanks -/

theorem isBlank_of_isDigit {c : Char} (h : isDigit c = true) : isBlank c = false := by
  obtain ⟨hlow, hhigh⟩ := toNat_of_isDigit h
  simp only [isBlank, Bool.or_eq_false_iff, Bool.and_eq_false_iff, decide_eq_false_iff_not,
    beq_eq_false_iff_ne]
  omega

/-- A numeral neither begins nor ends with a blank. -/
theorem Numeral.not_blank {cs : List Char} {z : Int} (h : Numeral cs z) :
    cs ≠ [] ∧ (∀ c ∈ cs.head?, isBlank c = false) ∧ ∀ c ∈ cs.getLast?, isBlank c = false := by
  have hall : ∀ {ds : List Char} {n : Nat}, Decimal ds n → ds ≠ [] ∧ ∀ c ∈ ds, isBlank c = false :=
    fun h => ⟨(decimal_iff.1 h).1, fun c hc => isBlank_of_isDigit ((decimal_iff.1 h).2.1 c hc)⟩
  have hsigned : ∀ (sign : Char) {ds : List Char} {n : Nat}, isBlank sign = false → Decimal ds n →
      sign :: ds ≠ [] ∧ (∀ c ∈ (sign :: ds).head?, isBlank c = false) ∧
        ∀ c ∈ (sign :: ds).getLast?, isBlank c = false := by
    intro sign ds n hsign h
    have hblank : ∀ c ∈ sign :: ds, isBlank c = false := List.forall_mem_cons.2 ⟨hsign, (hall h).2⟩
    exact ⟨List.cons_ne_nil _ _, fun c hc => hblank c (List.mem_of_head? hc),
      fun c hc => hblank c (List.mem_of_getLast? hc)⟩
  cases h with
  | unsigned h =>
    exact ⟨(hall h).1, fun c hc => (hall h).2 c (List.mem_of_head? hc),
      fun c hc => (hall h).2 c (List.mem_of_getLast? hc)⟩
  | plus h => exact hsigned '+' rfl h
  | minus h => exact hsigned '-' rfl h

theorem dropWhile_isBlank {front cs : List Char} (hfront : ∀ c ∈ front, isBlank c = true)
    (hcs : ∀ c ∈ cs.head?, isBlank c = false) : (front ++ cs).dropWhile isBlank = cs := by
  rw [List.dropWhile_append_of_pos hfront]
  cases cs with
  | nil => rfl
  | cons c cs => rw [List.dropWhile_cons_of_neg (by simp [hcs c rfl])]

/-- Blanks around a text that neither begins nor ends with one are taken off. -/
theorem trim_append {front cs back : List Char} (hfront : ∀ c ∈ front, isBlank c = true)
    (hback : ∀ c ∈ back, isBlank c = true) (hne : cs ≠ [])
    (hhead : ∀ c ∈ cs.head?, isBlank c = false) (hlast : ∀ c ∈ cs.getLast?, isBlank c = false) :
    trim (front ++ (cs ++ back)) = cs := by
  have hfirst : ∀ c ∈ (cs ++ back).head?, isBlank c = false := by
    obtain ⟨d, ds, rfl⟩ := List.exists_cons_of_ne_nil hne
    exact hhead
  rw [trim, dropWhile_isBlank hfront hfirst, List.reverse_append,
    dropWhile_isBlank (fun c hc => hback c (List.mem_reverse.1 hc)) (by rwa [List.head?_reverse]),
    List.reverse_reverse]

/-- What is taken off a text are blanks at its two ends. -/
theorem exists_append_trim (cs : List Char) : ∃ front back, cs = front ++ (trim cs ++ back) ∧
    (∀ c ∈ front, isBlank c = true) ∧ ∀ c ∈ back, isBlank c = true := by
  have hblank : ∀ ds : List Char, ∀ c ∈ ds.takeWhile isBlank, isBlank c = true :=
    fun ds => List.all_eq_true.1 List.all_takeWhile
  let rest := cs.dropWhile isBlank
  refine ⟨cs.takeWhile isBlank, (rest.reverse.takeWhile isBlank).reverse, ?_, hblank cs,
    fun c hc => hblank _ c (List.mem_reverse.1 hc)⟩
  rw [trim, ← List.reverse_append, List.takeWhile_append_dropWhile, List.reverse_reverse,
    List.takeWhile_append_dropWhile]

/-- A text denotes a number exactly if it is a numeral once the blanks around it are taken off. -/
theorem denotes_iff {s : String} {n : Int32} : Denotes s n ↔ Numeral (trim s.toList) n.toInt := by
  constructor
  · rintro ⟨front, numeral, back, hs, hfront, hback, hnumeral⟩
    obtain ⟨hne, hhead, hlast⟩ := hnumeral.not_blank
    rwa [hs, trim_append hfront hback hne hhead hlast]
  · intro h
    obtain ⟨front, back, hs, hfront, hback⟩ := exists_append_trim s.toList
    exact ⟨front, trim s.toList, back, hs, hfront, hback, h⟩

/-! ### Writing numerals -/

theorem decimal_toDigits (value : Nat) : Decimal (Nat.toDigits 10 value) value := by
  refine decimal_iff.2 ⟨Nat.toDigits_ne_nil, fun c hc => ?_, ?_⟩
  · exact isDigit_of_core (Nat.isDigit_of_mem_toDigits (by decide) (by decide) hc)
  · exact Nat.ofDigitChars_toDigits (by decide) (by decide)

/-- What is written for a number is a numeral of its value. -/
theorem numeral_writeInt (n : Int32) : Numeral (writeInt n) n.toInt := by
  simp only [writeInt]
  split
  · next hnegative =>
    have h := Numeral.minus (decimal_toDigits n.toInt.natAbs)
    rwa [show -(n.toInt.natAbs : Int) = n.toInt by omega] at h
  · next hpositive =>
    have h := Numeral.unsigned (decimal_toDigits n.toInt.natAbs)
    rwa [show (n.toInt.natAbs : Int) = n.toInt by omega] at h

theorem denotes_text (n : Int32) : Denotes (Value.int n).text n :=
  ⟨[], writeInt n, [], by simp [Value.text], nofun, nofun, numeral_writeInt n⟩

end Text

namespace Routine

open Text

/-- A text is read as the number that it denotes, and as none if it denotes none. -/
theorem readInt?_eq_some_iff {s : String} {n : Int32} : readInt? s = some n ↔ Denotes s n :=
  Text.readInt?_eq_some_iff.trans denotes_iff.symm

theorem invoke_stringToInt {s : String} {n : Int32} {console : Console} :
    invoke .stringToInt [.string s] console = (.ok (.int n), console) ↔ Denotes s n := by
  rw [← readInt?_eq_some_iff, invoke]
  cases readInt? s with
  | none => simp
  | some m => simp

/-- The conversion from text to a number answers the number that the text denotes and fails on a text
    that denotes none, which the error holds as it was.  Every number survives the conversion to text
    and back. -/
theorem stringToInt_exact (s : String) (console : Console) :
    (∀ n, invoke .stringToInt [.string s] console = (.ok (.int n), console) ↔ Denotes s n) ∧
      ((∀ n, ¬ Denotes s n) →
        invoke .stringToInt [.string s] console = (.error (.invalidConversion s .int), console)) ∧
      ∀ n, ∃ t, invoke .intToString [.int n] console = (.ok (.string t), console) ∧
        invoke .stringToInt [.string t] console = (.ok (.int n), console) := by
  refine ⟨fun n => invoke_stringToInt, fun hnone => ?_, fun n => ?_⟩
  · have hread : readInt? s = none := by
      cases h : readInt? s with
      | none => rfl
      | some n => exact absurd (readInt?_eq_some_iff.1 h) (hnone n)
    rw [invoke, hread]
  · exact ⟨(Value.int n).text, rfl, invoke_stringToInt.2 (denotes_text n)⟩

/-- The smallest number is read, although its digits without the sign are too large. -/
example : readInt? " -2147483648\n" = some (-2147483648) ∧ readInt? "2147483648" = none := by
  decide

end Routine

end SnippetLang
