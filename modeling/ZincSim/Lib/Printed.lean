/-
  ZincSim.Lib.Printed — reading a printed text back from its left end.

  A text made of pieces is unambiguous when each piece shows where it ends.
  `Determines text key` says this of one piece: from the text of a value,
  followed by anything, the key of the value and what follows can be recovered.
  Two kinds of piece do so:

    • a numeral with a delimiter behind it, because the delimiter is not a
      digit (`numeral_inj`);
    • a list of entries with separators, because neither the separator nor an
      entry can be taken for the closing text (`Determines.separated`).
-/
import Mathlib.Data.Nat.Init
import Mathlib.Tactic

namespace Printed

/-! ## §1. The value of a numeral -/

/-- The value of one of the characters `0` to `9`, `a` to `f`. -/
def digitValue (c : Char) : Nat := if c.toNat < 58 then c.toNat - 48 else c.toNat - 87

theorem digitValue_digitChar : ∀ d < 16, digitValue (Nat.digitChar d) = d := by decide

/-- The value of a list of digits, the most significant one first. -/
def numeralValue (b : Nat) (digits : List Char) : Nat :=
  digits.foldl (fun value c => value * b + digitValue c) 0

theorem numeralValue_concat (b : Nat) (digits : List Char) (c : Char) :
    numeralValue b (digits ++ [c]) = numeralValue b digits * b + digitValue c := by
  simp only [numeralValue, List.foldl_append, List.foldl_cons, List.foldl_nil]

theorem numeralValue_zeros (b count : Nat) (digits : List Char) :
    numeralValue b (List.replicate count '0' ++ digits) = numeralValue b digits := by
  have zero : digitValue '0' = 0 := by decide
  induction count with
  | zero => rfl
  | succ count ih =>
    rw [← ih, numeralValue, List.replicate_succ, List.cons_append, List.foldl_cons, zero,
      Nat.zero_mul, numeralValue]

section Base

variable {b : Nat} (hb : 1 < b) (hb' : b ≤ 16)

include hb hb'

theorem numeralValue_toDigits (n : Nat) : numeralValue b (Nat.toDigits b n) = n := by
  induction n using Nat.strongRecOn with
  | ind n ih =>
    rw [Nat.toDigits_eq_if hb]
    split
    · next small =>
      rw [← List.nil_append [n.digitChar], numeralValue_concat,
        digitValue_digitChar n (by omega), numeralValue, List.foldl_nil, Nat.zero_mul,
        Nat.zero_add]
    · next large =>
      have smaller : n / b < n := Nat.div_lt_self (by omega) hb
      have digit : n % b < b := Nat.mod_lt n (by omega)
      rw [numeralValue_concat, ih (n / b) smaller, digitValue_digitChar _ (by omega)]
      exact Nat.div_add_mod' n b

theorem eq_digitChar_of_mem_toDigits {n : Nat} {c : Char} (h : c ∈ Nat.toDigits b n) :
    ∃ d < 16, c = Nat.digitChar d := by
  induction n using Nat.strongRecOn with
  | ind n ih =>
    rw [Nat.toDigits_eq_if hb] at h
    split at h
    · next small => exact ⟨n, by omega, List.mem_singleton.1 h⟩
    · next large =>
      have digit : n % b < b := Nat.mod_lt n (by omega)
      rcases List.mem_append.1 h with high | low
      · exact ih (n / b) (Nat.div_lt_self (by omega) hb) high
      · exact ⟨n % b, by omega, List.mem_singleton.1 low⟩

/-- A zero-padded numeral has no character but digits. -/
theorem eq_digitChar_of_mem_padded {width n : Nat} {c : Char}
    (h : c ∈ List.leftpad width '0' (Nat.toDigits b n)) : ∃ d < 16, c = Nat.digitChar d := by
  rw [List.leftpad] at h
  rcases List.mem_append.1 h with padding | digit
  · exact ⟨0, by omega, List.eq_of_mem_replicate padding⟩
  · exact eq_digitChar_of_mem_toDigits hb hb' digit

/-- Padding does not change what a numeral says. -/
theorem padded_injective {width m n : Nat}
    (h : List.leftpad width '0' (Nat.toDigits b m) = List.leftpad width '0' (Nat.toDigits b n)) :
    m = n := by
  have value := congrArg (numeralValue b) h
  rwa [List.leftpad, List.leftpad, numeralValue_zeros, numeralValue_zeros,
    numeralValue_toDigits hb hb', numeralValue_toDigits hb hb'] at value

end Base

/-! ## §2. Pieces that show where they end -/

/-- The text starts with a character that is no digit of any base up to 16. -/
def Delimits (text : String) : Prop :=
  ∃ (c : Char) (rest : List Char), text.toList = c :: rest ∧ ∀ d < 16, Nat.digitChar d ≠ c

/-- Two lists without `stop` that are followed by it are equal if the whole is. -/
theorem append_stop_inj {xs ys us vs : List Char} {stop : Char} (hx : stop ∉ xs)
    (hy : stop ∉ ys) (h : xs ++ stop :: us = ys ++ stop :: vs) : xs = ys ∧ us = vs := by
  have before : ∀ zs ws : List Char, stop ∉ zs →
      (zs ++ stop :: ws).takeWhile (· != stop) = zs := by
    intro zs ws hz
    have pass : ∀ c ∈ zs, (c != stop) = true :=
      fun c hc => bne_iff_ne.2 (fun eq => hz (eq ▸ hc))
    rw [List.takeWhile_append_of_pos pass, List.takeWhile_cons_of_neg (by simp), List.append_nil]
  have same : xs = ys := by rw [← before xs us hx, h, before ys vs hy]
  subst same
  exact ⟨rfl, (List.cons.inj (List.append_cancel_left h)).2⟩

/-- A padded numeral and its delimiter give back the number and what follows. -/
theorem numeral_inj {b width m n : Nat} {delimiter s t : String} (hb : 1 < b) (hb' : b ≤ 16)
    (stops : Delimits delimiter)
    (h : String.ofList (List.leftpad width '0' (Nat.toDigits b m)) ++ (delimiter ++ s) =
      String.ofList (List.leftpad width '0' (Nat.toDigits b n)) ++ (delimiter ++ t)) :
    m = n ∧ s = t := by
  obtain ⟨c, rest, starts, noDigit⟩ := stops
  have notIn : ∀ k, c ∉ List.leftpad width '0' (Nat.toDigits b k) := by
    intro k mem
    obtain ⟨d, hd, eq⟩ := eq_digitChar_of_mem_padded hb hb' mem
    exact noDigit d hd eq.symm
  have lists := congrArg String.toList h
  simp only [String.toList_append, String.toList_ofList, starts, List.cons_append] at lists
  obtain ⟨numeral, tail⟩ := append_stop_inj (notIn m) (notIn n) lists
  exact ⟨padded_injective hb hb' numeral, String.toList_inj.1 (List.append_cancel_left tail)⟩

/-- Texts whose first characters differ cannot be continued to one text. -/
theorem append_ne_append {x y : String} {c d : Char} {us vs : List Char}
    (hx : x.toList = c :: us) (hy : y.toList = d :: vs) (ne : c ≠ d) (s t : String) :
    x ++ s ≠ y ++ t := by
  intro h
  have lists := congrArg String.toList h
  rw [String.toList_append, String.toList_append, hx, hy] at lists
  exact ne (List.cons.inj lists).1

/-- From the text of a value and anything behind it, `key` can be read off. -/
def Determines {α κ : Type} (text : α → String) (key : α → κ) : Prop :=
  ∀ ⦃x y : α⦄ ⦃s t : String⦄, text x ++ s = text y ++ t → key x = key y ∧ s = t

/-! ## §3. Lists of entries -/

section Entries

variable {α κ : Type} {text : α → String} {key : α → κ} {separator closing : String}

/-- Entries behind a first one: a separator stands before each. -/
def following (separator : String) (text : α → String) : List α → String
  | [] => ""
  | x :: xs => separator ++ (text x ++ following separator text xs)

/-- Entries with separators between them. -/
def separated (separator : String) (text : α → String) : List α → String
  | [] => ""
  | x :: xs => text x ++ following separator text xs

/-- Entries behind a first one can be read back up to the closing text. -/
theorem Determines.following (entry : Determines text key)
    (apart : ∀ s t, separator ++ s ≠ closing ++ t) {xs ys : List α} {s t : String}
    (h : Printed.following separator text xs ++ (closing ++ s) =
      Printed.following separator text ys ++ (closing ++ t)) :
    xs.map key = ys.map key ∧ s = t := by
  induction xs generalizing ys with
  | nil =>
    cases ys with
    | nil => simpa [Printed.following] using h
    | cons y ys =>
      simp only [Printed.following, String.empty_append, String.append_assoc] at h
      exact absurd h.symm (apart _ _)
  | cons x xs ih =>
    cases ys with
    | nil =>
      simp only [Printed.following, String.empty_append, String.append_assoc] at h
      exact absurd h (apart _ _)
    | cons y ys =>
      simp only [Printed.following, String.append_assoc, String.append_right_inj] at h
      obtain ⟨first, rest⟩ := entry h
      obtain ⟨others, tail⟩ := ih rest
      exact ⟨by rw [List.map_cons, List.map_cons, first, others], tail⟩

/-- A list of entries can be read back up to its closing text. -/
theorem Determines.separated (entry : Determines text key)
    (apart : ∀ s t, separator ++ s ≠ closing ++ t)
    (opens : ∀ x s t, text x ++ s ≠ closing ++ t) {xs ys : List α} {s t : String}
    (h : Printed.separated separator text xs ++ (closing ++ s) =
      Printed.separated separator text ys ++ (closing ++ t)) :
    xs.map key = ys.map key ∧ s = t := by
  cases xs with
  | nil =>
    cases ys with
    | nil => simpa [Printed.separated] using h
    | cons y ys =>
      simp only [Printed.separated, String.empty_append, String.append_assoc] at h
      exact absurd h.symm (opens y _ _)
  | cons x xs =>
    cases ys with
    | nil =>
      simp only [Printed.separated, String.empty_append, String.append_assoc] at h
      exact absurd h (opens x _ _)
    | cons y ys =>
      simp only [Printed.separated, String.append_assoc] at h
      obtain ⟨first, rest⟩ := entry h
      obtain ⟨others, tail⟩ := entry.following apart rest
      exact ⟨by rw [List.map_cons, List.map_cons, first, others], tail⟩

end Entries

end Printed
