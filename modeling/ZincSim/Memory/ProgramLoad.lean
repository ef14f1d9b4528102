/-
  ZincSim.Memory.ProgramLoad — what the segment loop of `main` leaves in the memory.

  A round of the loop is two writes into one vector, the bytes of the file and the zeros up
  to the size in memory, at offsets from the base that could wrap.  For a segment inside the
  memory they do not, and the round lays the segment's patch over the map of bytes
  (`loadSegment_patched`).  The loop is then a fold over patches that are apart.
-/
import ZincSim.Lib.Overlay
import ZincSim.Machine.ElfLoader
import ZincSim.Memory.Bytes

namespace ZincSim

open Overlay (lay Apart)

/-! ## §1. Segments -/

namespace ElfSegment

/-- The addresses `[addr, addr + size)`. -/
def range (seg : ElfSegment) : Set ℕ :=
  Set.Ico seg.addr.toNat (seg.addr.toNat + seg.size.toNat)

instance (seg : ElfSegment) (n : ℕ) : Decidable (n ∈ seg.range) :=
  inferInstanceAs (Decidable (_ ≤ _ ∧ _ < _))

/-- The segment lies in the `size` bytes from `base` on, and its data in the segment. -/
structure Fits (base : BitVec 64) (size : ℕ) (seg : ElfSegment) : Prop where
  start : base.toNat ≤ seg.addr.toNat
  stop : seg.addr.toNat + seg.size.toNat ≤ base.toNat + size
  data : seg.data.length ≤ seg.size.toNat

/-- The bytes a segment asks for: its data, and zeros up to its size. -/
def bytes (seg : ElfSegment) : List (BitVec 8) :=
  seg.data ++ List.replicate (seg.size.toNat - seg.data.length) 0

/-- The same by address. -/
def patch (seg : ElfSegment) : BitVec 64 → Option (BitVec 8) := fun a =>
  if a.toNat ∈ seg.range then seg.bytes[(a - seg.addr).toNat]? else none

end ElfSegment

/-- The segments of a well-formed image for a memory of `size` bytes from `base` on. -/
structure WellFormed (base : BitVec 64) (size : ℕ) (segments : List ElfSegment) : Prop where
  fits : ∀ seg ∈ segments, seg.Fits base size
  disjoint : segments.Pairwise fun seg seg' => Disjoint seg.range seg'.range

/-- A segment alone is apart from all others. -/
theorem wellFormed_singleton {base : BitVec 64} {size : ℕ} {seg : ElfSegment}
    (h : seg.Fits base size) : WellFormed base size [seg] where
  fits _ hseg := List.mem_singleton.mp hseg ▸ h
  disjoint := List.pairwise_singleton ..

namespace ElfSegment

theorem length_bytes {base : BitVec 64} {size : ℕ} {seg : ElfSegment} (h : seg.Fits base size) :
    seg.bytes.length = seg.size.toNat := by
  have hdata := h.data
  rw [bytes, List.length_append, List.length_replicate]
  omega

theorem patch_of_not_mem {seg : ElfSegment} {a : BitVec 64} (h : a.toNat ∉ seg.range) :
    seg.patch a = none := if_neg h

/-- Segments that share no address ask for different bytes. -/
theorem patch_apart {seg seg' : ElfSegment} (h : Disjoint seg.range seg'.range) :
    Apart seg.patch seg'.patch := by
  intro a
  by_cases hmem : a.toNat ∈ seg.range
  · exact .inr (patch_of_not_mem (Set.disjoint_left.mp h hmem))
  · exact .inl (patch_of_not_mem hmem)

end ElfSegment

/-! ## §2. One round -/

section Round

variable {mem : Memory} {seg : ElfSegment}

/-- A segment inside the memory starts at its distance from the base. -/
theorem offset_of_fits (h : seg.Fits mem.base mem.data.length) :
    mem.offset seg.addr = seg.addr.toNat - mem.base.toNat :=
  BitVec.toNat_sub_of_le h.start

/-- The addresses of a segment, as offsets into the vector. -/
theorem mem_range_iff (hend : mem.base.toNat + mem.data.length < 2 ^ 64)
    (h : seg.Fits mem.base mem.data.length) (a : BitVec 64) :
    a.toNat ∈ seg.range ↔ mem.offset seg.addr ≤ mem.offset a ∧
      mem.offset a < mem.offset seg.addr + seg.size.toNat := by
  have hstart := h.start
  have hstop := h.stop
  have ha := a.isLt
  have hrange : a.toNat ∈ seg.range ↔
      seg.addr.toNat ≤ a.toNat ∧ a.toNat < seg.addr.toNat + seg.size.toNat := Iff.rfl
  rw [hrange, offset_of_fits h, Memory.offset, BitVec.toNat_sub]
  -- an address below the base wraps to an offset past the end
  by_cases hbelow : a.toNat < mem.base.toNat
  · rw [Nat.mod_eq_of_lt (by omega)]
    omega
  · rw [show 2 ^ 64 - mem.base.toNat + a.toNat = 2 ^ 64 + (a.toNat - mem.base.toNat) by omega,
      Nat.add_mod_left, Nat.mod_eq_of_lt (by omega)]
    omega

/-- The place of an address in its segment. -/
theorem sub_addr_toNat {a : BitVec 64} (h : mem.offset seg.addr ≤ mem.offset a) :
    (a - seg.addr).toNat = mem.offset a - mem.offset seg.addr := by
  have hsub : a - seg.addr = (a - mem.base) - (seg.addr - mem.base) := by bv_omega
  rw [hsub]
  exact BitVec.toNat_sub_of_le h

/-- The length of the data, as the source counts it. -/
theorem dataSize_toNat (h : seg.Fits mem.base mem.data.length) :
    (BitVec.ofNat 64 seg.data.length).toNat = seg.data.length := by
  have hdata := h.data
  rw [BitVec.toNat_ofNat]
  exact Nat.mod_eq_of_lt (by omega)

/-- The length of the rest does not wrap. -/
theorem restSize_toNat (h : seg.Fits mem.base mem.data.length) :
    (seg.size - BitVec.ofNat 64 seg.data.length).toNat = seg.size.toNat - seg.data.length := by
  have hle : BitVec.ofNat 64 seg.data.length ≤ seg.size := by
    rw [BitVec.le_def, dataSize_toNat h]
    exact h.data
  rw [BitVec.toNat_sub_of_le hle, dataSize_toNat h]

/-- The rest starts where the data ends. -/
theorem offset_rest (hend : mem.base.toNat + mem.data.length < 2 ^ 64)
    (h : seg.Fits mem.base mem.data.length) :
    mem.offset (seg.addr + BitVec.ofNat 64 seg.data.length) =
      mem.offset seg.addr + seg.data.length := by
  have hstart := h.start
  have hstop := h.stop
  have hdata := h.data
  have haddr : (seg.addr + BitVec.ofNat 64 seg.data.length).toNat =
      seg.addr.toNat + seg.data.length := by
    rw [BitVec.toNat_add, dataSize_toNat h]
    exact Nat.mod_eq_of_lt (by omega)
  have hle : mem.base ≤ seg.addr + BitVec.ofNat 64 seg.data.length := by
    rw [BitVec.le_def, haddr]
    omega
  rw [offset_of_fits h, Memory.offset, BitVec.toNat_sub_of_le hle, haddr]
  omega

/-- The two writes of a round are one, of all the bytes. -/
theorem loadSegment_eq (hend : mem.base.toNat + mem.data.length < 2 ^ 64)
    (h : seg.Fits mem.base mem.data.length) :
    loadSegment mem seg = .ok (mem.overwrite (mem.offset seg.addr) seg.bytes) := by
  have hstart := h.start
  have hstop := h.stop
  have hdata := h.data
  have hfit := offset_of_fits h
  have hin : mem.offset seg.addr + seg.data.length ≤ mem.data.length := by omega
  have hload : mem.load seg.addr seg.data =
      .ok (mem.overwrite (mem.offset seg.addr) seg.data) := if_pos hin
  have hrest := offset_rest hend h
  have hoff : (mem.overwrite (mem.offset seg.addr) seg.data).offset
      (seg.addr + BitVec.ofNat 64 seg.data.length) = mem.offset seg.addr + seg.data.length := hrest
  unfold loadSegment
  rw [hload]
  show (mem.overwrite (mem.offset seg.addr) seg.data).clear _ _ = _
  unfold Memory.clear
  rw [hoff, restSize_toNat h, Memory.length_overwrite hin, if_pos (by omega),
    Memory.overwrite_overwrite (by omega)]
  rfl

/-- What a piece of the loop does to the memory. -/
structure Patched (mem mem' : Memory) (bytes : BitVec 64 → Option (BitVec 8)) : Prop where
  base : mem'.base = mem.base
  length : mem'.data.length = mem.data.length
  bytes : mem'.byteAt = bytes

/-- **One round lays the segment's bytes over the memory.** -/
theorem loadSegment_patched (hend : mem.base.toNat + mem.data.length < 2 ^ 64)
    (h : seg.Fits mem.base mem.data.length) :
    ∃ mem', loadSegment mem seg = .ok mem' ∧ Patched mem mem' (lay mem.byteAt seg.patch) := by
  have hin : mem.offset seg.addr + seg.bytes.length ≤ mem.data.length := by
    have hstop := h.stop
    have hstart := h.start
    rw [ElfSegment.length_bytes h, offset_of_fits h]
    omega
  refine ⟨_, loadSegment_eq hend h, rfl, Memory.length_overwrite hin, ?_⟩
  funext a
  show (mem.overwrite (mem.offset seg.addr) seg.bytes).data[mem.offset a]? = _
  rw [Memory.getElem?_overwrite hin, ElfSegment.length_bytes h]
  by_cases hmem : a.toNat ∈ seg.range
  · have hrange := (mem_range_iff hend h a).mp hmem
    have hlt : mem.offset a - mem.offset seg.addr < seg.bytes.length := by
      rw [ElfSegment.length_bytes h]
      omega
    have hpatch : seg.patch a = some seg.bytes[mem.offset a - mem.offset seg.addr] := by
      unfold ElfSegment.patch
      rw [if_pos hmem, sub_addr_toNat hrange.1, List.getElem?_eq_getElem hlt]
    rw [if_pos hrange, Overlay.lay_of_some hpatch, List.getElem?_eq_getElem hlt]
  · rw [if_neg (fun hrange => hmem ((mem_range_iff hend h a).mpr hrange)),
      Overlay.lay_of_none (ElfSegment.patch_of_not_mem hmem)]
    rfl

end Round

/-! ## §3. The loop -/

/-- **The loop lays the segments' bytes over the memory**, one after the other. -/
theorem loadSegments_patched {mem : Memory} {segments : List ElfSegment}
    (hend : mem.base.toNat + mem.data.length < 2 ^ 64)
    (h : ∀ seg ∈ segments, seg.Fits mem.base mem.data.length) :
    ∃ mem', loadSegments mem segments = .ok mem' ∧
      Patched mem mem' ((segments.map ElfSegment.patch).foldl lay mem.byteAt) := by
  induction segments generalizing mem with
  | nil => exact ⟨mem, rfl, rfl, rfl, rfl⟩
  | cons seg segments ih =>
    obtain ⟨mid, hround, hmid⟩ := loadSegment_patched hend (h seg List.mem_cons_self)
    -- the invariant of the loop: base and length stay, so the rest of the list still fits
    have hrest : ∀ seg ∈ segments, seg.Fits mid.base mid.data.length := by
      intro seg' hseg'
      rw [hmid.base, hmid.length]
      exact h seg' (List.mem_cons_of_mem _ hseg')
    obtain ⟨mem', hloop, hmem'⟩ := ih (by rw [hmid.base, hmid.length]; exact hend) hrest
    refine ⟨mem', ?_, hmem'.base.trans hmid.base, hmem'.length.trans hmid.length, ?_⟩
    · unfold loadSegments
      rw [List.foldlM_cons, hround]
      exact hloop
    · rw [hmem'.bytes, hmid.bytes]
      rfl

namespace Memory

/-- A memory is its base, its size and its bytes. -/
theorem ext_byteAt {mem mem' : Memory} (hbase : mem.base = mem'.base)
    (hlength : mem.data.length = mem'.data.length) (hbytes : mem.byteAt = mem'.byteAt)
    (hsize : mem.data.length ≤ 2 ^ 64) : mem = mem' := by
  have hdata : mem.data = mem'.data := by
    apply List.ext_getElem?
    intro i
    by_cases hi : i < mem.data.length
    · have hoff (m : Memory) : m.offset (m.base + BitVec.ofNat 64 i) = i := by
        unfold offset
        rw [show m.base + BitVec.ofNat 64 i - m.base = BitVec.ofNat 64 i by bv_omega,
          BitVec.toNat_ofNat]
        exact Nat.mod_eq_of_lt (by omega)
      have hbyte := congrFun hbytes (mem.base + BitVec.ofNat 64 i)
      unfold byteAt at hbyte
      rwa [hoff mem, hbase, hoff mem'] at hbyte
    · rw [List.getElem?_eq_none (by omega), List.getElem?_eq_none (by omega)]
  cases mem
  cases mem'
  cases hbase
  cases hdata
  rfl

end Memory

/-! ## §4. The fresh memory -/

section Fresh

variable {segments : List ElfSegment} {mem : Memory}

/-- What the segments ask for and nothing else, in a memory of `size` bytes from `base` on. -/
structure ImageLoaded (base : BitVec 64) (size : ℕ) (segments : List ElfSegment) (mem : Memory) :
    Prop where
  base_eq : mem.base = base
  length_eq : mem.data.length = size
  data : ∀ seg ∈ segments, ∀ i (hi : i < seg.data.length),
    mem.byteAt (seg.addr + BitVec.ofNat 64 i) = some (seg.data.get ⟨i, hi⟩)
  zeros : ∀ seg ∈ segments, ∀ i, seg.data.length ≤ i → i < seg.size.toNat →
    mem.byteAt (seg.addr + BitVec.ofNat 64 i) = some 0
  outside : ∀ a : BitVec 64, a.toNat ∈ Set.Ico base.toNat (base.toNat + size) →
    (∀ seg ∈ segments, a.toNat ∉ seg.range) → mem.byteAt a = some 0

/-- The patches of a well-formed image are apart. -/
theorem WellFormed.patches_apart {base : BitVec 64} {size : ℕ}
    (h : WellFormed base size segments) : (segments.map ElfSegment.patch).Pairwise Apart :=
  List.pairwise_map.mpr (h.disjoint.imp ElfSegment.patch_apart)

/-- The patch of a segment at its `i`th address. -/
theorem ElfSegment.patch_add {base : BitVec 64} {size i : ℕ} {seg : ElfSegment}
    (hend : base.toNat + size < 2 ^ 64) (h : seg.Fits base size) (hi : i < seg.size.toNat) :
    seg.patch (seg.addr + BitVec.ofNat 64 i) = seg.bytes[i]? := by
  have hstop := h.stop
  have hoff : (BitVec.ofNat 64 i).toNat = i := by
    rw [BitVec.toNat_ofNat]
    exact Nat.mod_eq_of_lt (by omega)
  have haddr : (seg.addr + BitVec.ofNat 64 i).toNat = seg.addr.toNat + i := by
    rw [BitVec.toNat_add, hoff]
    exact Nat.mod_eq_of_lt (by omega)
  have hmem : (seg.addr + BitVec.ofNat 64 i).toNat ∈ seg.range := by
    rw [haddr]
    exact ⟨by omega, by omega⟩
  have hsub : seg.addr + BitVec.ofNat 64 i - seg.addr = BitVec.ofNat 64 i := by bv_omega
  unfold ElfSegment.patch
  rw [if_pos hmem, hsub, hoff]

/-- A fresh memory is zero from the base to the end. -/
theorem byteAt_init {base a : BitVec 64} {size : ℕ}
    (ha : a.toNat ∈ Set.Ico base.toNat (base.toNat + size)) :
    (Memory.init base size).byteAt a = some 0 := by
  obtain ⟨hle, hlt⟩ := ha
  show (List.replicate size 0)[(a - base).toNat]? = some 0
  rw [BitVec.toNat_sub_of_le hle, List.getElem?_replicate, if_pos (by omega)]

/-- What the loop leaves of a fresh memory, as patches. -/
theorem loadSegments_init {base : BitVec 64} {size : ℕ} (hend : base.toNat + size < 2 ^ 64)
    (h : ∀ seg ∈ segments, seg.Fits base size) :
    ∃ mem, loadSegments (Memory.init base size) segments = .ok mem ∧ mem.base = base ∧
      mem.data.length = size ∧ mem.byteAt =
        (segments.map ElfSegment.patch).foldl lay (Memory.init base size).byteAt := by
  have hlength : (Memory.init base size).data.length = size := List.length_replicate
  have hinit : (Memory.init base size).base.toNat +
      (Memory.init base size).data.length < 2 ^ 64 := by
    rw [hlength]
    exact hend
  obtain ⟨mem, hloop, hmem⟩ := loadSegments_patched hinit (by rw [hlength]; exact h)
  exact ⟨mem, hloop, hmem.base, hmem.length.trans hlength, hmem.bytes⟩

/-- Patches that are apart load the image. -/
theorem imageLoaded_of_patches {base : BitVec 64} {size : ℕ} (hend : base.toNat + size < 2 ^ 64)
    (h : WellFormed base size segments) (hbase : mem.base = base)
    (hlength : mem.data.length = size) (hbytes : mem.byteAt =
      (segments.map ElfSegment.patch).foldl lay (Memory.init base size).byteAt) :
    ImageLoaded base size segments mem where
  base_eq := hbase
  length_eq := hlength
  data seg hseg i hi := by
    have hfits := h.fits seg hseg
    have hbyte : seg.patch (seg.addr + BitVec.ofNat 64 i) = some (seg.data.get ⟨i, hi⟩) := by
      rw [ElfSegment.patch_add hend hfits (hi.trans_le hfits.data), ElfSegment.bytes,
        List.getElem?_append_left hi]
      exact List.getElem?_eq_getElem hi
    rw [hbytes]
    exact Overlay.foldl_lay_of_mem h.patches_apart (List.mem_map_of_mem hseg) hbyte _
  zeros seg hseg i hle hlt := by
    have hbyte : seg.patch (seg.addr + BitVec.ofNat 64 i) = some 0 := by
      rw [ElfSegment.patch_add hend (h.fits seg hseg) hlt, ElfSegment.bytes,
        List.getElem?_append_right hle, List.getElem?_replicate, if_pos (by omega)]
    rw [hbytes]
    exact Overlay.foldl_lay_of_mem h.patches_apart (List.mem_map_of_mem hseg) hbyte _
  outside a ha hout := by
    have hnone : ∀ p ∈ segments.map ElfSegment.patch, p a = none := by
      intro p hp
      obtain ⟨seg, hseg, rfl⟩ := List.mem_map.mp hp
      exact ElfSegment.patch_of_not_mem (hout seg hseg)
    rw [hbytes, Overlay.foldl_lay_of_none _ hnone]
    exact byteAt_init ha

end Fresh

/-- **Program loading.** -/
theorem segments_loaded (segments : List ElfSegment) (h : WellFormed memBase memSize segments) :
    ∃ mem, loadSegments (Memory.init memBase memSize) segments = .ok mem ∧
      ImageLoaded memBase memSize segments mem ∧
      ∀ order : List ElfSegment, order.Perm segments →
        loadSegments (Memory.init memBase memSize) order = .ok mem := by
  have hend : memBase.toNat + memSize < 2 ^ 64 := by decide
  obtain ⟨mem, hloop, hbase, hlength, hbytes⟩ := loadSegments_init hend h.fits
  refine ⟨mem, hloop, imageLoaded_of_patches hend h hbase hlength hbytes, ?_⟩
  intro order hperm
  have hfits : ∀ seg ∈ order, seg.Fits memBase memSize :=
    fun seg hseg => h.fits seg (hperm.mem_iff.mp hseg)
  obtain ⟨mem', hloop', hbase', hlength', hbytes'⟩ := loadSegments_init hend hfits
  -- both orders lay the same patches, which are apart
  have hsame : mem'.byteAt = mem.byteAt := by
    rw [hbytes, hbytes']
    exact (Overlay.foldl_lay_perm h.patches_apart (hperm.symm.map _) _).symm
  rw [hloop', Memory.ext_byteAt (hbase'.trans hbase.symm) (hlength'.trans hlength.symm) hsame
    (by rw [hlength']; decide)]

/-- Two segments that meet, the second of them with a byte of zeros. -/
theorem segments_loaded_two :
    ∃ mem, loadSegments (Memory.init memBase memSize)
        [⟨0x80000000, 2, [0x13, 0x05]⟩, ⟨0x80000002, 2, [0x10]⟩] = .ok mem ∧
      mem.byteAt 0x80000002 = some 0x10 ∧ mem.byteAt 0x80000003 = some 0 ∧
      loadSegments (Memory.init memBase memSize)
        [⟨0x80000002, 2, [0x10]⟩, ⟨0x80000000, 2, [0x13, 0x05]⟩] = .ok mem := by
  have hformed : WellFormed memBase memSize
      [⟨0x80000000, 2, [0x13, 0x05]⟩, ⟨0x80000002, 2, [0x10]⟩] := by
    refine ⟨?_, ?_⟩
    · intro seg hseg
      simp only [List.mem_cons, List.not_mem_nil, or_false] at hseg
      rcases hseg with rfl | rfl <;> exact ⟨by decide, by decide, by decide⟩
    · rw [List.pairwise_pair]
      exact Set.Ico_disjoint_Ico.mpr (by decide)
  obtain ⟨mem, hloop, hloaded, horder⟩ := segments_loaded _ hformed
  refine ⟨mem, hloop, ?_, ?_, horder _ (List.Perm.swap _ _ _)⟩
  · exact hloaded.data ⟨0x80000002, 2, [0x10]⟩ (by decide) 0 (by decide)
  · exact hloaded.zeros ⟨0x80000002, 2, [0x10]⟩ (by decide) 1 (by decide) (by decide)

end ZincSim
