/-
  ZincSim.Lib.ByteMap — byte-addressed memory as a map, little-endian.

  A byte map gives the byte behind each address, or `none` where there is no
  memory.  A store replaces a range of bytes; after a sequence of stores each
  byte is that of the latest store covering its address (`foldl_store`).  A load
  spells the bytes of a range, least significant first (`load_eq_some`).
-/
import Mathlib

/-- The bytes by address. -/
abbrev ByteMap (w : ℕ) := BitVec w → Option (BitVec 8)

namespace ByteMap

variable {w : ℕ}

/-! ## §1. Stores -/

/-- A store of the `size` low bytes of `value` from `addr` on. -/
structure Store (w : ℕ) where
  addr : BitVec w
  size : ℕ
  value : ℕ
  deriving DecidableEq, Repr

namespace Store

/-- The store writes the byte at `a`. -/
def Covers (s : Store w) (a : BitVec w) : Prop := (a - s.addr).toNat < s.size

instance (s : Store w) (a : BitVec w) : Decidable (s.Covers a) :=
  inferInstanceAs (Decidable (_ < _))

/-- The byte the store writes at `a`. -/
def byteAt (s : Store w) (a : BitVec w) : BitVec 8 :=
  BitVec.ofNat 8 (s.value / 256 ^ (a - s.addr).toNat)

end Store

/-- The map after a store. -/
def store (map : ByteMap w) (s : Store w) : ByteMap w :=
  fun a => if s.Covers a then some (s.byteAt a) else map a

/-- Values with the same low bytes make the same store. -/
theorem store_congr {map : ByteMap w} {addr : BitVec w} {size value value' : ℕ}
    (h : value' % 256 ^ size = value % 256 ^ size) :
    map.store { addr := addr, size := size, value := value' } =
      map.store { addr := addr, size := size, value := value } := by
  funext a
  unfold store
  have hcovers (v : ℕ) : Store.Covers ⟨addr, size, v⟩ a ↔ (a - addr).toNat < size := Iff.rfl
  by_cases hi : (a - addr).toNat < size
  · rw [if_pos ((hcovers value').mpr hi), if_pos ((hcovers value).mpr hi)]
    -- byte `i < size` is decided by the `size` low bytes
    have hcut (v : ℕ) : v / 256 ^ (a - addr).toNat % 256 =
        v % 256 ^ size / 256 ^ (a - addr).toNat % 256 := by
      obtain ⟨k, hk⟩ := Nat.exists_eq_add_of_lt hi
      rw [hk, add_assoc, pow_add, Nat.mod_mul_right_div_self, pow_succ', Nat.mod_mul_right_mod]
    simp only [Store.byteAt, Option.some.injEq]
    apply BitVec.eq_of_toNat_eq
    rw [BitVec.toNat_ofNat, BitVec.toNat_ofNat]
    show value' / _ % 256 = value / _ % 256
    rw [hcut value', hcut value, h]
  · rw [if_neg fun h => hi ((hcovers value').mp h), if_neg fun h => hi ((hcovers value).mp h)]

/-- The byte of the latest of `stores` that covers `a`, else the one of `map`. -/
def latest (map : ByteMap w) (stores : List (Store w)) : ByteMap w := fun a =>
  match stores.reverse.find? (·.Covers a) with
  | some s => some (s.byteAt a)
  | none => map a

@[simp] theorem latest_nil (map : ByteMap w) : map.latest [] = map := rfl

/-- A later store comes first. -/
theorem latest_concat (map : ByteMap w) (stores : List (Store w)) (s : Store w) :
    map.latest (stores ++ [s]) = (map.latest stores).store s := by
  funext a
  unfold latest store
  rw [List.reverse_append, List.reverse_singleton, List.singleton_append, List.find?_cons]
  by_cases h : s.Covers a
  · rw [decide_eq_true h, if_pos h]
  · rw [decide_eq_false h, if_neg h]

/-- **Stores in sequence** leave the latest bytes. -/
theorem foldl_store (map : ByteMap w) (stores : List (Store w)) :
    stores.foldl store map = map.latest stores := by
  induction stores using List.reverseRecOn with
  | nil => rfl
  | append_singleton stores s ih =>
    rw [List.foldl_append, ih, latest_concat]
    rfl

/-- An address that no store covers keeps its byte. -/
theorem latest_of_not_covers {map : ByteMap w} {stores : List (Store w)} {a : BitVec w}
    (h : ∀ s ∈ stores, ¬ s.Covers a) : map.latest stores a = map a := by
  have hnone : stores.reverse.find? (·.Covers a) = none := by
    rw [List.find?_eq_none]
    intro s hs
    simpa using h s (List.mem_reverse.mp hs)
  unfold latest
  rw [hnone]

/-- The byte behind an address after the stores is theirs, or the one that was there. -/
theorem latest_congr {map map' : ByteMap w} {stores : List (Store w)} {a : BitVec w}
    (h : (∀ s ∈ stores, ¬ s.Covers a) → map' a = map a) :
    map'.latest stores a = map.latest stores a := by
  by_cases hcovers : ∀ s ∈ stores, ¬ s.Covers a
  · rw [latest_of_not_covers hcovers, latest_of_not_covers hcovers, h hcovers]
  · have hsome : (stores.reverse.find? (·.Covers a)).isSome := by
      rw [List.find?_isSome]
      simpa using hcovers
    obtain ⟨s, hs⟩ := Option.isSome_iff_exists.mp hsome
    unfold latest
    rw [hs]

/-! ## §2. Loads -/

/-- The number that the `size` bytes from `addr` on spell. -/
def load (map : ByteMap w) (addr : BitVec w) : ℕ → Option ℕ
  | 0 => some 0
  | size + 1 => do
      let byte ← map addr
      let rest ← load map (addr + 1) size
      return byte.toNat + 256 * rest

/-- The addresses of a load past its first byte. -/
theorem add_one_add (addr : BitVec w) (i : ℕ) :
    addr + 1 + BitVec.ofNat w i = addr + BitVec.ofNat w (i + 1) := by
  rw [BitVec.add_assoc, BitVec.ofNat_add, BitVec.add_comm 1]
  rfl

theorem load_succ (map : ByteMap w) (addr : BitVec w) (size : ℕ) :
    map.load addr (size + 1) =
      (map addr).bind fun byte => (map.load (addr + 1) size).map (byte.toNat + 256 * ·) := by
  show (map addr).bind _ = _
  congr 1
  funext byte
  cases map.load (addr + 1) size <;> rfl

/-- A load depends on its bytes alone. -/
theorem load_congr {map map' : ByteMap w} {size : ℕ} {addr : BitVec w}
    (h : ∀ i < size, map' (addr + BitVec.ofNat w i) = map (addr + BitVec.ofNat w i)) :
    map'.load addr size = map.load addr size := by
  induction size generalizing addr with
  | zero => rfl
  | succ size ih =>
    have hfirst := h 0 (Nat.succ_pos size)
    rw [BitVec.add_zero] at hfirst
    have hrest : map'.load (addr + 1) size = map.load (addr + 1) size := by
      refine ih fun i hi => ?_
      rw [add_one_add]
      exact h (i + 1) (Nat.succ_lt_succ hi)
    rw [load_succ, load_succ, hfirst, hrest]

/-- A load needs all of its bytes, and no more. -/
theorem isSome_load {map : ByteMap w} {size : ℕ} {addr : BitVec w} :
    (map.load addr size).isSome ↔ ∀ i < size, (map (addr + BitVec.ofNat w i)).isSome := by
  induction size generalizing addr with
  | zero => exact iff_of_true rfl fun i hi => absurd hi (Nat.not_lt_zero i)
  | succ size ih =>
    have hload : (map.load addr (size + 1)).isSome ↔
        (map addr).isSome ∧ (map.load (addr + 1) size).isSome := by
      rw [load_succ]
      cases map addr <;> simp
    rw [hload, ih]
    simp only [add_one_add]
    constructor
    · rintro ⟨hfirst, hrest⟩ i hi
      cases i with
      | zero =>
        rw [BitVec.add_zero]
        exact hfirst
      | succ i => exact hrest i (Nat.lt_of_succ_lt_succ hi)
    · intro h
      have hfirst := h 0 (Nat.succ_pos size)
      rw [BitVec.add_zero] at hfirst
      exact ⟨hfirst, fun i hi => h (i + 1) (Nat.succ_lt_succ hi)⟩

/-- A load reads back a number whose bytes are all there. -/
theorem load_eq_some {map : ByteMap w} {size value : ℕ} {addr : BitVec w}
    (hvalue : value < 256 ^ size)
    (h : ∀ i < size, map (addr + BitVec.ofNat w i) = some (BitVec.ofNat 8 (value / 256 ^ i))) :
    map.load addr size = some value := by
  induction size generalizing addr value with
  | zero =>
    rw [pow_zero, Nat.lt_one_iff] at hvalue
    rw [hvalue]
    rfl
  | succ size ih =>
    have hfirst := h 0 (Nat.succ_pos size)
    rw [BitVec.add_zero, pow_zero, Nat.div_one] at hfirst
    -- the other bytes are those of the quotient, one address up
    have hrest : map.load (addr + 1) size = some (value / 256) := by
      refine ih (Nat.div_lt_of_lt_mul (pow_succ' 256 size ▸ hvalue)) fun i hi => ?_
      have hnext := h (i + 1) (Nat.succ_lt_succ hi)
      rw [pow_succ', ← Nat.div_div_eq_div_mul] at hnext
      rw [BitVec.add_assoc, ← hnext]
      congr 2
      rw [BitVec.ofNat_add, BitVec.add_comm]
      rfl
    unfold load
    rw [hfirst, hrest]
    simp only [bind, Option.bind, pure, BitVec.toNat_ofNat, Option.some.injEq]
    exact Nat.mod_add_div value 256

end ByteMap
