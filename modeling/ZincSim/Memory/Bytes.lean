/-
  ZincSim.Memory.Bytes — `class Memory` as a map from addresses to bytes.

  The accessors index cells of their own size from the base.  When the base is
  8-aligned, the cell of an aligned address starts at the address, and a load or
  store of `size` bytes is about the bytes at `addr, …, addr + size - 1`, least
  significant first (`getCell_bytes`, `writeMem_stored`).
-/
import ZincSim.Machine.Step

namespace ZincSim

/-! ## §1. Little-endian bytes -/

/-- Byte `i` of a word, counted from the least significant one. -/
def byteOf {w : Nat} (value : BitVec w) (i : Nat) : BitVec 8 := value.extractLsb' (8 * i) 8

theorem byteOf_eq {w : Nat} (value : BitVec w) (i : Nat) :
    byteOf value i = BitVec.ofNat 8 (value.toNat / 256 ^ i) := by
  apply BitVec.eq_of_toNat_eq
  rw [byteOf, BitVec.extractLsb'_toNat, BitVec.toNat_ofNat, Nat.shiftRight_eq_div_pow, Nat.pow_mul]

@[simp] theorem length_toLE (size value : Nat) : (toLE size value).length = size := by
  induction size generalizing value with
  | zero => rfl
  | succ size ih => rw [toLE, List.length_cons, ih]

theorem getElem?_toLE {size i : Nat} (value : Nat) (h : i < size) :
    (toLE size value)[i]? = some (BitVec.ofNat 8 (value / 256 ^ i)) := by
  induction size generalizing value i with
  | zero => omega
  | succ size ih =>
    cases i with
    | zero => simp [toLE]
    | succ i =>
      rw [toLE, List.getElem?_cons_succ, ih _ (by omega), Nat.div_div_eq_div_mul, ← Nat.pow_succ']

/-- The bytes of the number that `bytes` spell are `bytes`. -/
theorem ofNat_fromLE (bytes : List (BitVec 8)) {i : Nat} (h : i < bytes.length) :
    bytes[i]? = some (BitVec.ofNat 8 (fromLE bytes / 256 ^ i)) := by
  induction bytes generalizing i with
  | nil => exact absurd h (by simp)
  | cons b bytes ih =>
    have hb := b.isLt
    cases i with
    | zero =>
      rw [List.getElem?_cons_zero, fromLE, Nat.pow_zero, Nat.div_one, Option.some.injEq]
      apply BitVec.eq_of_toNat_eq
      rw [BitVec.toNat_ofNat]
      omega
    | succ i =>
      rw [List.getElem?_cons_succ, ih (by simpa using h), fromLE, Nat.pow_succ',
        ← Nat.div_div_eq_div_mul]
      congr 3
      omega

theorem fromLE_lt (bytes : List (BitVec 8)) : fromLE bytes < 256 ^ bytes.length := by
  induction bytes with
  | nil => simp [fromLE]
  | cons b bytes ih =>
    have hb := b.isLt
    rw [fromLE, List.length_cons, Nat.pow_succ']
    omega

/-! ## §2. The byte at an address -/

namespace Memory

/-- The byte at `addr`, when it is in RAM. -/
def byteAt (mem : Memory) (addr : BitVec 64) : Option (BitVec 8) := mem.data[mem.offset addr]?

/-- An access is aligned relative to an 8-aligned base. -/
theorem offset_dvd {mem : Memory} {addr : BitVec 64} {size : Nat} (hbase : 8 ∣ mem.base.toNat)
    (hsize : size ∣ 8) (haddr : size ∣ addr.toNat) : size ∣ mem.offset addr := by
  -- the subtraction wraps at 2^64, which every access size divides
  rw [offset, BitVec.toNat_sub]
  refine (Nat.dvd_mod_iff (hsize.trans (by decide))).mpr ?_
  refine Nat.dvd_add (Nat.dvd_sub ?_ (hsize.trans hbase)) haddr
  exact hsize.trans (by decide)

/-- The bytes of an aligned cell do not wrap around. -/
theorem offset_add {mem : Memory} {addr : BitVec 64} {size i : Nat} (hsize : size ∣ 8)
    (haligned : size ∣ mem.offset addr) (hi : i < size) :
    mem.offset (addr + BitVec.ofNat 64 i) = mem.offset addr + i := by
  have hlt : mem.offset addr < 2 ^ 64 := (addr - mem.base).isLt
  -- an aligned cell ends at a multiple of its size, so at 2^64 at the latest
  have hfits : mem.offset addr + i < 2 ^ 64 := by
    obtain ⟨k, hk⟩ := haligned
    obtain ⟨n, hn⟩ : size ∣ 2 ^ 64 := hsize.trans (by decide)
    rw [hk, hn] at hlt
    have hkn : k < n := Nat.lt_of_mul_lt_mul_left hlt
    rw [hk, hn]
    nlinarith
  rw [offset, show addr + BitVec.ofNat 64 i - mem.base = addr - mem.base + BitVec.ofNat 64 i by
      bv_omega,
    BitVec.toNat_add, BitVec.toNat_ofNat, Nat.add_mod_mod]
  exact Nat.mod_eq_of_lt hfits

/-- An offset inside an aligned cell belongs to an address of the cell. -/
theorem addr_of_offset (mem : Memory) {addr a : BitVec 64} {i : Nat}
    (h : mem.offset a = mem.offset addr + i) : a = addr + BitVec.ofNat 64 i := by
  unfold offset at h
  bv_omega

theorem cellStart_eq {mem : Memory} {addr : BitVec 64} {size : Nat}
    (h : size ∣ mem.offset addr) : mem.cellStart size addr = mem.offset addr :=
  Nat.mul_div_cancel' h

/-! ## §3. Loads -/

/-- **The number that a cell access returns**, byte by byte. -/
theorem getCell_bytes {mem : Memory} {addr : BitVec 64} {size value : Nat}
    (hbase : 8 ∣ mem.base.toNat) (hsize : size ∣ 8) (h : mem.getCell size addr = .ok value) :
    value < 256 ^ size ∧
      ∀ i < size, mem.byteAt (addr + BitVec.ofNat 64 i) =
        some (BitVec.ofNat 8 (value / 256 ^ i)) := by
  unfold getCell at h
  split at h
  · cases h
  next haddr =>
    split at h
    next hin =>
      cases h
      -- the assertion is on the address; the cell index needs the offset aligned
      have hoff : size ∣ mem.offset addr :=
        offset_dvd hbase hsize (Nat.dvd_of_mod_eq_zero (not_not.mp haddr))
      rw [Contains, cellStart_eq hoff] at hin
      rw [cellStart_eq hoff]
      have hlen : ((mem.data.drop (mem.offset addr)).take size).length = size := by
        rw [List.length_take, List.length_drop]
        omega
      refine ⟨?_, fun i hi => ?_⟩
      · have hlt := fromLE_lt ((mem.data.drop (mem.offset addr)).take size)
        rwa [hlen] at hlt
      · have hbyte := ofNat_fromLE ((mem.data.drop (mem.offset addr)).take size)
          (i := i) (by omega)
        rw [List.getElem?_take_of_lt hi, List.getElem?_drop] at hbyte
        rw [byteAt, offset_add hsize hoff hi]
        exact hbyte
    · cases h

/-- The word that `get_32` returns, byte by byte. -/
theorem get32_bytes {mem : Memory} {addr : BitVec 64} {word : BitVec 32}
    (hbase : 8 ∣ mem.base.toNat) (h : mem.get32 addr = .ok word) {i : Nat} (hi : i < 4) :
    mem.byteAt (addr + BitVec.ofNat 64 i) = some (byteOf word i) := by
  cases hcell : mem.getCell 4 addr with
  | error fault =>
    rw [get32, hcell] at h
    cases h
  | ok value =>
    rw [get32, hcell] at h
    cases h
    obtain ⟨hlt, hbytes⟩ := getCell_bytes hbase (by decide) hcell
    rw [hbytes i hi, byteOf_eq, BitVec.toNat_ofNat, show 2 ^ 32 = 256 ^ 4 from rfl,
      Nat.mod_eq_of_lt hlt]

/-- An aligned access inside the memory succeeds. -/
theorem getCell_of_aligned {mem : Memory} {addr : BitVec 64} {size : Nat}
    (hbase : 8 ∣ mem.base.toNat) (hsize : size ∣ 8) (haddr : size ∣ addr.toNat)
    (hin : mem.offset addr + size ≤ mem.data.length) :
    ∃ value, mem.getCell size addr = .ok value := by
  have hcontains : mem.Contains size addr := by
    rw [Contains, cellStart_eq (offset_dvd hbase hsize haddr)]
    exact hin
  unfold getCell
  rw [if_neg (fun hne => hne (Nat.mod_eq_zero_of_dvd haddr)), if_pos hcontains]
  exact ⟨_, rfl⟩

/-! ## §4. Stores -/

@[simp] theorem base_overwrite (mem : Memory) (start : Nat) (bytes : List (BitVec 8)) :
    (mem.overwrite start bytes).base = mem.base := rfl

theorem length_overwrite {mem : Memory} {start : Nat} {bytes : List (BitVec 8)}
    (h : start + bytes.length ≤ mem.data.length) :
    (mem.overwrite start bytes).data.length = mem.data.length := by
  simp only [overwrite, List.length_append, List.length_take, List.length_drop]
  omega

/-- Overwriting where the last write ended. -/
theorem overwrite_overwrite {mem : Memory} {start : Nat} (h : start ≤ mem.data.length)
    (xs ys : List (BitVec 8)) :
    (mem.overwrite start xs).overwrite (start + xs.length) ys = mem.overwrite start (xs ++ ys) := by
  have hlen : (mem.data.take start ++ xs).length = start + xs.length := by
    rw [List.length_append, List.length_take]
    omega
  unfold overwrite
  dsimp only
  rw [← hlen, List.take_left, List.drop_append, List.drop_eq_nil_of_le (by omega), List.nil_append,
    List.drop_drop, Nat.add_sub_cancel_left, hlen, List.length_append]
  simp only [List.append_assoc, Nat.add_assoc]

theorem getElem?_overwrite {mem : Memory} {start : Nat} {bytes : List (BitVec 8)}
    (h : start + bytes.length ≤ mem.data.length) (i : Nat) :
    (mem.overwrite start bytes).data[i]? =
      if start ≤ i ∧ i < start + bytes.length then bytes[i - start]? else mem.data[i]? := by
  have hstart : (mem.data.take start).length = start := by
    rw [List.length_take]
    omega
  unfold overwrite
  dsimp only
  rw [List.append_assoc]
  -- before, inside and after the overwritten range
  by_cases hlt : i < start
  · rw [List.getElem?_append_left (by omega), List.getElem?_take_of_lt hlt,
      if_neg (by omega)]
  · rw [List.getElem?_append_right (by omega), hstart]
    by_cases hin : i < start + bytes.length
    · rw [List.getElem?_append_left (by omega), if_pos ⟨by omega, hin⟩]
    · rw [List.getElem?_append_right (by omega), List.getElem?_drop, if_neg (by omega)]
      congr 1
      omega

/-- What a store of `size` bytes of `value` at `addr` leaves behind. -/
structure Stored (mem mem' : Memory) (addr : BitVec 64) (size : Nat) (value : BitVec 64) :
    Prop where
  base : mem'.base = mem.base
  length : mem'.data.length = mem.data.length
  written : ∀ i < size, mem'.byteAt (addr + BitVec.ofNat 64 i) = some (byteOf value i)
  frame : ∀ a, (∀ i < size, a ≠ addr + BitVec.ofNat 64 i) → mem'.byteAt a = mem.byteAt a

theorem stored_overwrite {mem : Memory} {addr : BitVec 64} {size : Nat} {value : BitVec 64}
    (hsize : size ∣ 8) (haligned : size ∣ mem.offset addr)
    (hin : mem.offset addr + size ≤ mem.data.length) :
    Stored mem (mem.overwrite (mem.offset addr) (toLE size value.toNat)) addr size value where
  base := rfl
  length := length_overwrite (by rw [length_toLE]; exact hin)
  written := by
    intro i hi
    have hoff : (mem.overwrite (mem.offset addr) (toLE size value.toNat)).offset
        (addr + BitVec.ofNat 64 i) = mem.offset addr + i := offset_add hsize haligned hi
    rw [byteAt, hoff, getElem?_overwrite (by rw [length_toLE]; exact hin), length_toLE,
      if_pos (by omega), Nat.add_sub_cancel_left, getElem?_toLE _ hi, byteOf_eq]
  frame := by
    intro a ha
    have hoff : (mem.overwrite (mem.offset addr) (toLE size value.toNat)).offset a =
        mem.offset a := rfl
    rw [byteAt, hoff, getElem?_overwrite (by rw [length_toLE]; exact hin), length_toLE,
      if_neg]
    · rfl
    · rintro ⟨hle, hlt⟩
      exact ha (mem.offset a - mem.offset addr) (by omega)
        (addr_of_offset mem (by omega))

theorem setCell_stored {mem mem' : Memory} {addr : BitVec 64} {size : Nat} {value : BitVec 64}
    (hbase : 8 ∣ mem.base.toNat) (hsize : size ∣ 8)
    (h : mem.setCell size addr value.toNat = .ok mem') : Stored mem mem' addr size value := by
  unfold setCell at h
  split at h
  · cases h
  next haddr =>
    split at h
    next hin =>
      cases h
      have hoff : size ∣ mem.offset addr :=
        offset_dvd hbase hsize (Nat.dvd_of_mod_eq_zero (not_not.mp haddr))
      rw [Contains, cellStart_eq hoff] at hin
      rw [cellStart_eq hoff]
      exact stored_overwrite hsize hoff hin
    · cases h

theorem set8_stored {mem mem' : Memory} {addr value : BitVec 64}
    (h : mem.set8 addr (value.setWidth 8) = .ok mem') : Stored mem mem' addr 1 value := by
  unfold set8 at h
  split at h
  next hin =>
    cases h
    -- `set_8` indexes the vector itself; as a cell of one byte it is the general case
    have hset : mem.data.set (mem.offset addr) (value.setWidth 8) =
        (mem.overwrite (mem.offset addr) (toLE 1 value.toNat)).data := by
      have hbyte : BitVec.ofNat 8 value.toNat = value.setWidth 8 := by
        apply BitVec.eq_of_toNat_eq
        simp
      simp only [overwrite, toLE, hbyte, List.length_singleton]
      rw [List.set_eq_take_append_cons_drop, if_pos hin, List.append_assoc]
      rfl
    have hstored : Stored mem (mem.overwrite (mem.offset addr) (toLE 1 value.toNat)) addr 1 value :=
      stored_overwrite (by decide) (Nat.one_dvd _) hin
    rw [hset]
    exact hstored
  · cases h

end Memory

/-- **One round of the loop over `mem_writes`** stores the bytes of its value. -/
theorem writeMem_stored {mem mem' : Memory} {write : MemAccess} (hbase : 8 ∣ mem.base.toNat)
    (hsize : write.size ∈ [1, 2, 4, 8]) (hfits : write.value.toNat < 256 ^ write.size.toNat)
    (h : writeMem mem write = .ok mem') :
    mem.Stored mem' write.addr write.size.toNat write.value := by
  obtain ⟨addr, value, size⟩ := write
  have hcut {w : Nat} (hw : value.toNat < 2 ^ w) : (value.setWidth w).toNat = value.toNat := by
    rw [BitVec.toNat_setWidth, Nat.mod_eq_of_lt hw]
  simp only [List.mem_cons, List.not_mem_nil, or_false] at hsize
  -- the value was cut to the size when the store was built, so the cast loses nothing
  rcases hsize with rfl | rfl | rfl | rfl
  · exact Memory.set8_stored h
  · have hset : mem.setCell 2 addr (value.setWidth 16).toNat = .ok mem' := h
    rw [hcut hfits] at hset
    exact Memory.setCell_stored hbase (show 2 ∣ 8 by decide) hset
  · have hset : mem.setCell 4 addr (value.setWidth 32).toNat = .ok mem' := h
    rw [hcut hfits] at hset
    exact Memory.setCell_stored hbase (show 4 ∣ 8 by decide) hset
  · exact Memory.setCell_stored hbase (show 8 ∣ 8 by decide) h

/-- The fetch of an aligned word in RAM succeeds; a misaligned one aborts. -/
theorem get32_of_contains {mem : Memory} {addr : BitVec 64} (h : mem.Contains 4 addr) :
    (4 ∣ addr.toNat → ∃ word, mem.get32 addr = .ok word) ∧
      (¬ 4 ∣ addr.toNat → mem.get32 addr = .error (.assertion addr 4)) := by
  unfold Memory.get32 Memory.getCell
  constructor
  · intro haligned
    rw [if_neg (fun hne => hne (Nat.mod_eq_zero_of_dvd haligned)), if_pos h]
    exact ⟨_, rfl⟩
  · intro haligned
    rw [if_pos (fun heq => haligned (Nat.dvd_of_mod_eq_zero heq))]
    rfl

/-- A word that was fetched is in RAM. -/
theorem contains_of_get32 {mem : Memory} {addr : BitVec 64} {word : BitVec 32}
    (h : mem.get32 addr = .ok word) : mem.Contains 4 addr := by
  by_contra hout
  unfold Memory.get32 Memory.getCell at h
  by_cases haligned : addr.toNat % 4 ≠ 0
  · rw [if_pos haligned] at h
    cases h
  · rw [if_neg haligned, if_neg hout] at h
    cases h

end ZincSim
