/-
  ZincSim.Memory.LoaderDomain — which files load, and what they leave in the memory.

  The two writes of a round have no bounds check of their own, so a round stays inside the
  vector exactly when its segment fits the memory and its data the segment (`Fits`): a segment
  below the base or a file size above the memory size wraps past the end.  Segments may
  overlap; the last one that covers an address gives its byte.
-/
import ZincSim.Memory.ProgramLoad

namespace ZincSim

open Overlay (lay)

/-! ## §1. A round -/

section Round

variable {mem mem' : Memory} {seg : ElfSegment}

/-- **A round that stays inside the vector** has a segment that fits. -/
theorem fits_of_loadSegment (hend : mem.base.toNat + mem.data.length < 2 ^ 64)
    (hdata : seg.data.length < 2 ^ 64) (h : loadSegment mem seg = .ok mem') :
    seg.Fits mem.base mem.data.length := by
  have haddr := seg.addr.isLt
  have hsize := seg.size.isLt
  have hcast : (BitVec.ofNat 64 seg.data.length).toNat = seg.data.length := by
    rw [BitVec.toNat_ofNat]
    exact Nat.mod_eq_of_lt hdata
  -- the copy
  have hcopy : mem.offset seg.addr + seg.data.length ≤ mem.data.length := by
    by_contra hout
    have hfail : mem.load seg.addr seg.data = .error .undefined := if_neg hout
    unfold loadSegment at h
    rw [hfail] at h
    cases h
  have hload : mem.load seg.addr seg.data =
      .ok (mem.overwrite (mem.offset seg.addr) seg.data) := if_pos hcopy
  have hstart : mem.base.toNat ≤ seg.addr.toNat := by
    by_contra hbelow
    rw [Memory.offset, BitVec.toNat_sub] at hcopy
    rw [Nat.mod_eq_of_lt (by omega)] at hcopy
    omega
  have hoff : mem.offset seg.addr = seg.addr.toNat - mem.base.toNat :=
    BitVec.toNat_sub_of_le hstart
  -- the fill, which starts where the copy ended
  have hrestart : mem.offset (seg.addr + BitVec.ofNat 64 seg.data.length) =
      mem.offset seg.addr + seg.data.length := by
    have hnat : (seg.addr + BitVec.ofNat 64 seg.data.length).toNat =
        seg.addr.toNat + seg.data.length := by
      rw [BitVec.toNat_add, hcast]
      exact Nat.mod_eq_of_lt (by omega)
    have hle : mem.base ≤ seg.addr + BitVec.ofNat 64 seg.data.length := by
      rw [BitVec.le_def, hnat]
      omega
    rw [hoff, Memory.offset, BitVec.toNat_sub_of_le hle, hnat]
    omega
  have hfill : mem.offset seg.addr + seg.data.length +
      (seg.size - BitVec.ofNat 64 seg.data.length).toNat ≤ mem.data.length := by
    by_contra hout
    have hlength := Memory.length_overwrite hcopy
    have hfail : (mem.overwrite (mem.offset seg.addr) seg.data).clear
        (seg.addr + BitVec.ofNat 64 seg.data.length)
        (seg.size - BitVec.ofNat 64 seg.data.length) = .error .undefined := by
      refine if_neg ?_
      rw [hlength]
      show ¬ mem.offset (seg.addr + BitVec.ofNat 64 seg.data.length) + _ ≤ _
      rw [hrestart]
      exact hout
    unfold loadSegment at h
    rw [hload] at h
    cases hfail.symm.trans h
  rw [BitVec.toNat_sub, hcast] at hfill
  -- a size below the data would wrap past the end
  have hfilled : seg.data.length ≤ seg.size.toNat := by
    by_contra hshort
    rw [Nat.mod_eq_of_lt (by omega)] at hfill
    omega
  rw [show 2 ^ 64 - seg.data.length + seg.size.toNat =
    2 ^ 64 + (seg.size.toNat - seg.data.length) by omega, Nat.add_mod_left,
    Nat.mod_eq_of_lt (by omega)] at hfill
  exact ⟨hstart, by omega, hfilled⟩

end Round

/-! ## §2. The loop -/

/-- **The loop stays inside the vector** exactly when every segment fits. -/
theorem loadSegments_iff {mem : Memory} {segments : List ElfSegment}
    (hend : mem.base.toNat + mem.data.length < 2 ^ 64)
    (hdata : ∀ seg ∈ segments, seg.data.length < 2 ^ 64) :
    (∃ mem', loadSegments mem segments = .ok mem') ↔
      ∀ seg ∈ segments, seg.Fits mem.base mem.data.length := by
  constructor
  · rintro ⟨mem', h⟩
    induction segments generalizing mem with
    | nil => exact fun seg hseg => absurd hseg List.not_mem_nil
    | cons seg segments ih =>
      unfold loadSegments at h
      rw [List.foldlM_cons] at h
      cases hround : loadSegment mem seg with
      | error fault =>
        rw [hround] at h
        cases h
      | ok mid =>
        rw [hround] at h
        have hfits := fits_of_loadSegment hend (hdata seg List.mem_cons_self) hround
        obtain ⟨mid', hround', hpatched⟩ := loadSegment_patched hend hfits
        obtain rfl := Except.ok.inj (hround.symm.trans hround')
        -- the invariant of the loop: base and length stay
        have hrest := ih (by rw [hpatched.base, hpatched.length]; exact hend)
          (fun seg' hseg' => hdata seg' (List.mem_cons_of_mem seg hseg')) h
        rw [hpatched.base, hpatched.length] at hrest
        intro seg' hseg'
        rcases List.mem_cons.mp hseg' with rfl | hmem
        · exact hfits
        · exact hrest seg' hmem
  · intro h
    obtain ⟨mem', hloop, -⟩ := loadSegments_patched hend h
    exact ⟨mem', hloop⟩

/-- The byte of the last segment that covers the address. -/
def lastByte (segments : List ElfSegment) (a : BitVec 64) : Option (BitVec 8) :=
  segments.reverse.findSome? (·.patch a)

theorem lastByte_eq (segments : List ElfSegment) (map : BitVec 64 → Option (BitVec 8))
    (a : BitVec 64) : (segments.map ElfSegment.patch).foldl lay map a =
      (lastByte segments a).or (map a) := by
  rw [Overlay.foldl_lay_eq, ← List.map_reverse, List.findSome?_map]
  rfl

/-! ## §3. From the file -/

/-- The segment made of a program header. -/
def ProgramHeader.segment (p : ProgramHeader) : ElfSegment where
  addr := p.virtualAddress
  size := p.memorySize
  data := p.data.take p.fileSize.toNat

/-- The segments that the loader makes of a file. -/
def ElfReader.loadable (reader : ElfReader) : List ElfSegment :=
  (reader.segments.filter (·.type = ElfLoader.ptLoad)).map ProgramHeader.segment

/-- The loop over headers whose bytes are all there. -/
theorem mapM_elfSegment {headers : List ProgramHeader}
    (h : ∀ p ∈ headers, p.fileSize.toNat ≤ p.data.length) :
    headers.mapM ElfLoader.elfSegment = .ok (headers.map ProgramHeader.segment) := by
  induction headers with
  | nil => rfl
  | cons p headers ih =>
    have hp : ElfLoader.elfSegment p = .ok p.segment := if_pos (h p List.mem_cons_self)
    rw [List.mapM_cons, hp, ih fun q hq => h q (List.mem_cons_of_mem p hq)]
    rfl

/-- The loop over headers returns only when their bytes are all there. -/
theorem read_of_mapM_elfSegment {headers : List ProgramHeader} {segments : List ElfSegment}
    (h : headers.mapM ElfLoader.elfSegment = .ok segments) :
    ∀ p ∈ headers, p.fileSize.toNat ≤ p.data.length := by
  induction headers generalizing segments with
  | nil => exact fun p hp => absurd hp List.not_mem_nil
  | cons p headers ih =>
    rw [List.mapM_cons] at h
    have hread : p.fileSize.toNat ≤ p.data.length := by
      by_contra hshort
      have hfail : ElfLoader.elfSegment p = .error .undefined := if_neg hshort
      rw [hfail] at h
      cases h
    have hp : ElfLoader.elfSegment p = .ok p.segment := if_pos hread
    rw [hp] at h
    cases htail : headers.mapM ElfLoader.elfSegment with
    | error fault =>
      rw [htail] at h
      cases h
    | ok rest =>
      intro q hq
      rcases List.mem_cons.mp hq with rfl | hmem
      · exact hread
      · exact ih htail q hmem

/-- The file loads: the first `tohost` symbol, or without one what `ElfImage image;` leaves in
the member, is not zero, the headers have their bytes, and the segments fit. -/
structure Loads (unassigned : BitVec 64) (reader : ElfReader) : Prop where
  tohost : (ElfLoader.findTohost reader.sections).getD unassigned ≠ 0
  read : ∀ p ∈ reader.segments, p.type = ElfLoader.ptLoad → p.fileSize.toNat ≤ p.data.length
  fits : ∀ seg ∈ reader.loadable, seg.Fits memBase memSize

section Loads

variable {unassigned : BitVec 64} {reader : ElfReader}

/-- A header that the loop over the segments sees. -/
theorem mem_loadable {p : ProgramHeader}
    (hp : p ∈ reader.segments.filter (·.type = ElfLoader.ptLoad)) :
    p ∈ reader.segments ∧ p.type = ElfLoader.ptLoad := by
  rw [List.mem_filter, decide_eq_true_iff] at hp
  exact hp

/-- The data of a segment is no longer than its size in the file. -/
theorem length_data_loadable : ∀ seg ∈ reader.loadable, seg.data.length < 2 ^ 64 := by
  intro seg hseg
  obtain ⟨p, -, rfl⟩ := List.mem_map.mp hseg
  exact (List.length_take_le _ _).trans_lt p.fileSize.isLt

/-- The image that `load` returns. -/
theorem load_eq_of_read
    (htohost : (ElfLoader.findTohost reader.sections).getD unassigned ≠ 0)
    (hread : ∀ p ∈ reader.segments, p.type = ElfLoader.ptLoad → p.fileSize.toNat ≤ p.data.length) :
    ElfLoader.load unassigned (some reader) = .ok
      { entry := reader.entry
        tohost := (ElfLoader.findTohost reader.sections).getD unassigned
        segments := reader.loadable } := by
  have hsegments : ElfLoader.elfSegments reader.segments = .ok reader.loadable :=
    mapM_elfSegment fun p hp => hread p (mem_loadable hp).1 (mem_loadable hp).2
  unfold ElfLoader.load
  simp only [if_neg htohost, hsegments]
  rfl

/-- What `load` returned an image of. -/
theorem read_of_load {image : ElfImage} (h : ElfLoader.load unassigned (some reader) = .ok image) :
    (ElfLoader.findTohost reader.sections).getD unassigned ≠ 0 ∧
      (∀ p ∈ reader.segments, p.type = ElfLoader.ptLoad → p.fileSize.toNat ≤ p.data.length) ∧
      image.segments = reader.loadable := by
  have htohost : (ElfLoader.findTohost reader.sections).getD unassigned ≠ 0 := by
    intro hzero
    unfold ElfLoader.load at h
    simp only [hzero, if_true] at h
    cases h
  have hread : ∀ p ∈ reader.segments, p.type = ElfLoader.ptLoad →
      p.fileSize.toNat ≤ p.data.length := by
    cases hsegments : ElfLoader.elfSegments reader.segments with
    | error fault =>
      unfold ElfLoader.load at h
      simp only [if_neg htohost, hsegments] at h
      cases h
    | ok segments =>
      intro p hp htype
      exact read_of_mapM_elfSegment hsegments p
        (List.mem_filter.mpr ⟨hp, decide_eq_true htype⟩)
  refine ⟨htohost, hread, ?_⟩
  rw [load_eq_of_read htohost hread] at h
  rw [← Except.ok.inj h]

/-- **A program starts exactly when its file loads**, and then each byte of the memory is the
one of the last segment that covers it, or zero. -/
theorem program_starts_iff (unassigned : BitVec 64) (csrs : BitVec 12 → BitVec 64)
    (reader : ElfReader) :
    (Loads unassigned reader → ∃ image m, ElfLoader.load unassigned (some reader) = .ok image ∧
      Machine.start csrs image = .ok m ∧ m.core = Core.init csrs reader.entry ∧
      ∀ a : BitVec 64, a.toNat ∈ Set.Ico memBase.toNat (memBase.toNat + memSize) →
        m.mem.byteAt a = some ((lastByte reader.loadable a).getD 0)) ∧
    (¬ Loads unassigned reader → ∀ image m,
      ElfLoader.load unassigned (some reader) = .ok image → Machine.start csrs image ≠ .ok m) := by
  have hend : memBase.toNat + memSize < 2 ^ 64 := by decide
  constructor
  · intro h
    obtain ⟨mem, hloop, -, -, hbytes⟩ := loadSegments_init hend h.fits
    refine ⟨_, ⟨Core.init csrs reader.entry, mem⟩, load_eq_of_read h.tohost h.read, ?_, rfl, ?_⟩
    · unfold Machine.start
      rw [hloop]
      rfl
    · intro a ha
      show mem.byteAt a = _
      rw [hbytes, lastByte_eq, byteAt_init ha]
      cases lastByte reader.loadable a <;> rfl
  · intro hno image m hload hstart
    obtain ⟨htohost, hread, hsegments⟩ := read_of_load hload
    have hlength : (Memory.init memBase memSize).data.length = memSize := List.length_replicate
    have hbase : (Memory.init memBase memSize).base = memBase := rfl
    -- the segments that the loop went through all fit
    have hloop : ∃ mem, loadSegments (Memory.init memBase memSize) reader.loadable = .ok mem := by
      unfold Machine.start at hstart
      rw [hsegments] at hstart
      cases hmem : loadSegments (Memory.init memBase memSize) reader.loadable with
      | error fault =>
        rw [hmem] at hstart
        cases hstart
      | ok mem => exact ⟨mem, rfl⟩
    have hfits := (loadSegments_iff (by rw [hlength, hbase]; exact hend)
      length_data_loadable).mp hloop
    rw [hlength, hbase] at hfits
    exact hno ⟨htohost, hread, hfits⟩

end Loads

/-- Two segments that overlap: the second one gives the byte that they share. -/
theorem program_starts_iff_overlap :
    ∃ image m, ElfLoader.load 0 (some
        { entry := 0x80000000
          sections := [⟨ElfLoader.shtSymtab, fun _ => some 0x80000008⟩]
          segments := [⟨ElfLoader.ptLoad, 0x80000000, 2, 4, [0x13, 0x05]⟩,
            ⟨ElfLoader.ptLoad, 0x80000001, 1, 1, [0x7f]⟩] }) = .ok image ∧
      Machine.start (fun _ => 0) image = .ok m ∧ m.mem.byteAt 0x80000000 = some 0x13 ∧
      m.mem.byteAt 0x80000001 = some 0x7f ∧ m.mem.byteAt 0x80000002 = some 0 := by
  obtain ⟨image, m, hload, hstart, -, hbytes⟩ := (program_starts_iff 0 (fun _ => 0)
    { entry := 0x80000000
      sections := [⟨ElfLoader.shtSymtab, fun _ => some 0x80000008⟩]
      segments := [⟨ElfLoader.ptLoad, 0x80000000, 2, 4, [0x13, 0x05]⟩,
        ⟨ElfLoader.ptLoad, 0x80000001, 1, 1, [0x7f]⟩] }).1 {
    tohost := by decide
    read := by
      intro p hp _
      simp only [List.mem_cons, List.not_mem_nil, or_false] at hp
      rcases hp with rfl | rfl <;> decide
    fits := by
      intro seg hseg
      have hmem : seg ∈ ([⟨0x80000000, 4, [0x13, 0x05]⟩, ⟨0x80000001, 1, [0x7f]⟩] :
          List ElfSegment) := hseg
      simp only [List.mem_cons, List.not_mem_nil, or_false] at hmem
      rcases hmem with rfl | rfl <;> exact ⟨by decide, by decide, by decide⟩ }
  refine ⟨image, m, hload, hstart, ?_, ?_, ?_⟩
  · exact hbytes 0x80000000 ⟨by decide, by decide⟩
  · exact hbytes 0x80000001 ⟨by decide, by decide⟩
  · exact hbytes 0x80000002 ⟨by decide, by decide⟩

end ZincSim
