import Ganoid.Library.ByteMemory
import Ganoid.Types
import Mathlib.Data.Set.Basic
import Mathlib.Logic.Function.Basic

/-!
# The RAM map read from the boot loader

The memory-map half of `arch/i386/lib/sysinfo.c`: `read_multiboot_information` saves the tables the
boot loader left in memory, and `parse_mboot_information` copies the available entries of the memory
map into `ram_map`. What the parser prints is not modelled, and neither are the fields it only
prints.

An entry of the memory map gives its base and its length with 64 bits each, and `ram_map` has 32 for
either: the parser keeps the low halves and drops the high ones. An entry that lies below 4 GiB
survives this (`MmapEntry.FitsU32`). For one that does not, the low halves describe other addresses,
and the map as a whole is right only if other entries make up for it (`MmapEntry.Kept`).
-/

namespace Ganoid

/-- `ram_map_t`: a range of usable physical memory. -/
structure RamMap where
  /-- Start address. -/
  saddr : U32
  /-- Length in bytes. -/
  len : U32
  deriving DecidableEq

/-- The address lies in the range, read without wrap-around. -/
def RamMap.Has (r : RamMap) (a : ℕ) : Prop :=
  r.saddr.toNat ≤ a ∧ a < r.saddr.toNat + r.len.toNat

/-- The fields of `struct multiboot_info` that decide what is saved and parsed. -/
structure MultibootInfo where
  flags : U32
  mmapLength : U32
  mmapAddr : U32
  drivesLength : U32
  drivesAddr : U32

/-- The fields at their offsets in the structure. -/
def MultibootInfo.read (m : Mem) (p : U32) : MultibootInfo where
  flags := m.load32 p
  mmapLength := m.load32 (p + 44)
  mmapAddr := m.load32 (p + 48)
  drivesLength := m.load32 (p + 52)
  drivesAddr := m.load32 (p + 56)

/-- `struct multiboot_mmap_entry`, less the size field, which the parser does not read. -/
structure MmapEntry where
  addr : U64
  len : U64
  type : U32
  deriving DecidableEq

/-- `sizeof(struct multiboot_mmap_entry)`; the structure is packed. -/
def sizeofMmapEntry : U32 := 24

/-- The `i`-th entry of the array at `base`. -/
def MmapEntry.read (m : Mem) (base : U32) (i : ℕ) : MmapEntry :=
  let p := base + sizeofMmapEntry * BitVec.ofNat 32 i
  { addr := m.load64 (p + 4), len := m.load64 (p + 12), type := m.load32 (p + 20) }

/-- `ADDR_MAP_NODE_CNT`, the entries of `mboot_mmap` and of `ram_map`. -/
def addrMapNodeCnt : U32 := 20

/-- `sizeof(mboot_mmap)`. -/
def sizeofMbootMmap : U32 := addrMapNodeCnt * sizeofMmapEntry

/-- `sizeof(drive_info)`: `DRIVE_INFO_NODE_CNT` packed structures of 14 bytes. -/
def sizeofDriveInfo : U32 := 20 * 14

/-- `MULTIBOOT_INFO_MEM_MAP`, without `GRUB_V_0_99`. -/
def multibootInfoMemMap : U32 := 0x20

/-- `MULTIBOOT_MEMORY_AVAILABLE`. -/
def multibootMemoryAvailable : U32 := 1

/-- The static tables of the file. The byte tables are addressed from their own start. -/
structure Sysinfo where
  mi : MultibootInfo
  mbootMmap : Mem
  driveInfo : Mem
  ramMap : ℕ → RamMap
  ramNodesCnt : U32

namespace Sysinfo

/-- The number of whole entries in the memory map. -/
def nodeCnt (st : Sysinfo) : U32 :=
  st.mi.mmapLength / sizeofMmapEntry

/-- The low 32 bits that the parser keeps of a 64-bit field. -/
def low (v : U64) : U32 :=
  (v &&& 0xFFFFFFFF).setWidth 32

/-- The entry as `ram_map` records it. -/
def ramMapOf (e : MmapEntry) : RamMap where
  saddr := low e.addr
  len := low e.len

/-- One pass of the loop over the memory map. -/
def parseEntry (st : Sysinfo) (i : ℕ) : Sysinfo :=
  let e := MmapEntry.read st.mbootMmap 0 i
  if e.type = multibootMemoryAvailable then
    { st with
      ramMap := Function.update st.ramMap st.ramNodesCnt.toNat (ramMapOf e)
      ramNodesCnt := st.ramNodesCnt + 1 }
  else st

/-- Whether `parse_mboot_information` parses the memory map. -/
def memMapTaken (mi : MultibootInfo) : Bool :=
  mi.flags &&& multibootInfoMemMap != 0 && mi.mmapLength != 0

/-- The memory-map branch of `parse_mboot_information`. -/
def parseMbootInformation (st : Sysinfo) : Sysinfo :=
  if memMapTaken st.mi then
    (List.range st.nodeCnt.toNat).foldl parseEntry { st with ramNodesCnt := 0 }
  else st

/-- What `read_multiboot_information` saves before it parses, with `none` where it calls
`kernel_fault`. -/
def saveMultibootInformation (m : Mem) (p : U32) (st : Sysinfo) : Option Sysinfo :=
  let mi := MultibootInfo.read m p
  if mi.mmapLength > sizeofMbootMmap then none
  else
    let mbootMmap :=
      if mi.mmapAddr ≠ 0 then st.mbootMmap.copyFrom 0 m mi.mmapAddr mi.mmapLength.toNat
      else st.mbootMmap
    if mi.drivesLength > sizeofDriveInfo then none
    else
      let driveInfo :=
        if mi.drivesAddr ≠ 0 then st.driveInfo.copyFrom 0 m mi.drivesAddr mi.drivesLength.toNat
        else st.driveInfo
      some { st with mi, mbootMmap, driveInfo }

/-- `read_multiboot_information`. -/
def readMultibootInformation (m : Mem) (p : U32) (st : Sysinfo) : Option Sysinfo :=
  (saveMultibootInformation m p st).map parseMbootInformation

/-- `get_rammap_ptr`: the recorded ranges. -/
def getRammapPtr (st : Sysinfo) : List RamMap :=
  (List.range st.ramNodesCnt.toNat).map st.ramMap

/-! ### The memory map and what it says -/

/-- The entries of the memory map. -/
def entries (st : Sysinfo) : List MmapEntry :=
  (List.range st.nodeCnt.toNat).map (MmapEntry.read st.mbootMmap 0)

/-- The entries that report usable memory. -/
def available (st : Sysinfo) : List MmapEntry :=
  st.entries.filter fun e ↦ e.type = multibootMemoryAvailable

/-- The physical addresses that the recorded ranges describe. -/
def describedRam (st : Sysinfo) : Set ℕ :=
  {a | ∃ r ∈ st.getRammapPtr, r.Has a}

/-- The physical addresses below 4 GiB that the memory map reports usable. -/
def availableRam (st : Sysinfo) : Set ℕ :=
  {a | a < 2 ^ 32 ∧ ∃ e ∈ st.available, e.addr.toNat ≤ a ∧ a < e.addr.toNat + e.len.toNat}

/-- What a state and a memory map have in common while the map is parsed: the ranges recorded are
those of the available entries seen so far. -/
structure Parsed (st₀ st : Sysinfo) (n : ℕ) : Prop where
  mi_eq : st.mi = st₀.mi
  table_eq : st.mbootMmap = st₀.mbootMmap
  rammap_eq : st.getRammapPtr =
    (((List.range n).map (MmapEntry.read st₀.mbootMmap 0)).filter
      fun e ↦ e.type = multibootMemoryAvailable).map ramMapOf

theorem length_getRammapPtr (st : Sysinfo) : st.getRammapPtr.length = st.ramNodesCnt.toNat := by
  simp [getRammapPtr]

/-- Recording a range appends it, as long as the counter does not wrap. -/
theorem getRammapPtr_record (st : Sysinfo) (r : RamMap) (h : st.ramNodesCnt.toNat < 2 ^ 32 - 1) :
    getRammapPtr { st with
      ramMap := Function.update st.ramMap st.ramNodesCnt.toNat r
      ramNodesCnt := st.ramNodesCnt + 1 } = st.getRammapPtr ++ [r] := by
  have hnext : (st.ramNodesCnt + 1).toNat = st.ramNodesCnt.toNat + 1 := by bv_omega
  rw [getRammapPtr, hnext, List.range_succ, List.map_append]
  congr 1
  · refine List.map_congr_left fun k hk ↦ ?_
    rw [List.mem_range] at hk
    exact Function.update_of_ne (Nat.ne_of_lt hk) _ _
  · simp

theorem Parsed.step {st₀ st : Sysinfo} {n : ℕ} (h : Parsed st₀ st n) (hn : n < 2 ^ 32 - 1) :
    Parsed st₀ (parseEntry st n) (n + 1) := by
  -- no more ranges than entries have been recorded, so the counter does not wrap
  have hcnt : st.ramNodesCnt.toNat ≤ n := by
    rw [← length_getRammapPtr, h.rammap_eq, List.length_map]
    refine (List.length_filter_le _ _).trans ?_
    simp
  have hrange : ((List.range (n + 1)).map (MmapEntry.read st₀.mbootMmap 0)) =
      (List.range n).map (MmapEntry.read st₀.mbootMmap 0) ++
        [MmapEntry.read st₀.mbootMmap 0 n] := by
    rw [List.range_succ, List.map_append, List.map_singleton]
  by_cases htype : (MmapEntry.read st.mbootMmap 0 n).type = multibootMemoryAvailable
  · rw [parseEntry, if_pos htype]
    refine ⟨h.mi_eq, h.table_eq, ?_⟩
    rw [getRammapPtr_record st _ (by omega), h.rammap_eq, hrange, List.filter_append,
      List.map_append, h.table_eq]
    rw [h.table_eq] at htype
    have hone : [MmapEntry.read st₀.mbootMmap 0 n].filter
        (fun e ↦ e.type = multibootMemoryAvailable) = [MmapEntry.read st₀.mbootMmap 0 n] :=
      List.filter_cons_of_pos (decide_eq_true htype)
    rw [hone, List.map_singleton]
  · rw [parseEntry, if_neg htype]
    refine ⟨h.mi_eq, h.table_eq, ?_⟩
    rw [h.table_eq] at htype
    rw [h.rammap_eq, hrange, List.filter_append,
      List.filter_cons_of_neg (by rwa [decide_eq_true_iff])]
    exact congrArg _ (List.append_nil _).symm

theorem parsed_foldl (st : Sysinfo) {n : ℕ} (hn : n < 2 ^ 32) :
    Parsed st ((List.range n).foldl parseEntry { st with ramNodesCnt := 0 }) n := by
  induction n with
  | zero => exact ⟨rfl, rfl, rfl⟩
  | succ n ih =>
    rw [List.range_succ, List.foldl_append]
    exact (ih (by omega)).step (by omega)

/-- Parsing leaves the tables it reads alone. -/
theorem available_parse (st : Sysinfo) : (parseMbootInformation st).available = st.available := by
  have h := parsed_foldl st st.nodeCnt.isLt
  rw [parseMbootInformation]
  split
  · rw [available, available, entries, entries, h.table_eq]
    have hcnt := congrArg (fun mi : MultibootInfo ↦ mi.mmapLength / sizeofMmapEntry) h.mi_eq
    exact congrArg (fun n : U32 ↦ List.filter _ ((List.range n.toNat).map _)) hcnt
  · rfl

theorem mi_parse (st : Sysinfo) : (parseMbootInformation st).mi = st.mi := by
  rw [parseMbootInformation]
  split
  · exact (parsed_foldl st st.nodeCnt.isLt).mi_eq
  · rfl

theorem mbootMmap_parse (st : Sysinfo) :
    (parseMbootInformation st).mbootMmap = st.mbootMmap := by
  rw [parseMbootInformation]
  split
  · exact (parsed_foldl st st.nodeCnt.isLt).table_eq
  · rfl

/-- **What the parser records**: the available entries in order, each cut to its low halves. -/
theorem getRammapPtr_parse {st : Sysinfo} (h : memMapTaken st.mi) :
    (parseMbootInformation st).getRammapPtr = st.available.map ramMapOf := by
  rw [parseMbootInformation, if_pos h, available, entries]
  exact (parsed_foldl st st.nodeCnt.isLt).rammap_eq

/-- What a read without a fault has saved. -/
theorem of_saveMultibootInformation {m : Mem} {p : U32} {st st₁ : Sysinfo}
    (h : saveMultibootInformation m p st = some st₁) :
    st₁.mi = .read m p ∧ st₁.mi.mmapLength ≤ sizeofMbootMmap ∧
      st₁.mi.drivesLength ≤ sizeofDriveInfo ∧
      (st₁.mi.mmapAddr ≠ 0 →
        st₁.mbootMmap = st.mbootMmap.copyFrom 0 m st₁.mi.mmapAddr st₁.mi.mmapLength.toNat) := by
  simp only [saveMultibootInformation] at h
  split at h
  · exact absurd h (by simp)
  · rename_i hmmap
    split at h
    · exact absurd h (by simp)
    · rename_i hdrives
      obtain rfl := Option.some.inj h
      exact ⟨rfl, BitVec.not_lt.1 hmmap, BitVec.not_lt.1 hdrives, fun haddr ↦ if_pos haddr⟩

/-- The parse that a read without a fault ends with. -/
theorem exists_parse_of_read {m : Mem} {p : U32} {st st' : Sysinfo}
    (h : readMultibootInformation m p st = some st') :
    ∃ st₁, st' = parseMbootInformation st₁ ∧ st₁.mi = MultibootInfo.read m p ∧
      st₁.mi.mmapLength ≤ sizeofMbootMmap ∧
      (st₁.mi.mmapAddr ≠ 0 →
        st₁.mbootMmap = st.mbootMmap.copyFrom 0 m st₁.mi.mmapAddr st₁.mi.mmapLength.toNat) := by
  obtain ⟨st₁, hsave, rfl⟩ := Option.map_eq_some_iff.1 h
  obtain ⟨hmi, hlen, -, htable⟩ := of_saveMultibootInformation hsave
  exact ⟨st₁, rfl, hmi, hlen, htable⟩

/-- An entry inside a copied table reads as it does where it was copied from. -/
theorem read_copyFrom {dst src : Mem} {base : U32} {n i : ℕ} (h : 24 * i + 24 ≤ n)
    (hn : n ≤ 2 ^ 32) :
    MmapEntry.read (dst.copyFrom 0 src base n) 0 i = MmapEntry.read src base i := by
  have hword : ∀ k : U32, k.toNat ≤ 20 →
      (dst.copyFrom 0 src base n).load32 (0 + sizeofMmapEntry * BitVec.ofNat 32 i + k) =
        src.load32 (base + sizeofMmapEntry * BitVec.ofNat 32 i + k) := fun k hk ↦ by
    have hoff : (sizeofMmapEntry * BitVec.ofNat 32 i + k).toNat = 24 * i + k.toNat := by
      rw [sizeofMmapEntry]
      bv_omega
    rw [BitVec.add_assoc, BitVec.add_assoc]
    exact Mem.load32_copyFrom (by omega) hn
  have hword2 : ∀ k : U32, k.toNat ≤ 16 →
      (dst.copyFrom 0 src base n).load64 (0 + sizeofMmapEntry * BitVec.ofNat 32 i + k) =
        src.load64 (base + sizeofMmapEntry * BitVec.ofNat 32 i + k) := fun k hk ↦ by
    rw [Mem.load64, Mem.load64, hword k (by omega), BitVec.add_assoc _ k, BitVec.add_assoc _ k,
      hword (k + 4) (by bv_omega)]
  rw [MmapEntry.read, MmapEntry.read, hword2 4 (by decide), hword2 12 (by decide),
    hword 20 (by decide)]

/-- The memory map that is parsed is the one the boot loader left in memory. -/
theorem entries_read {m : Mem} {p : U32} {st st' : Sysinfo}
    (h : readMultibootInformation m p st = some st') (haddr : st'.mi.mmapAddr ≠ 0) :
    st'.entries =
      (List.range st'.nodeCnt.toNat).map (MmapEntry.read m st'.mi.mmapAddr) := by
  obtain ⟨st₁, rfl, -, hlen, htable⟩ := exists_parse_of_read h
  have hmi := mi_parse st₁
  rw [hmi] at haddr
  have hsize : st₁.mi.mmapLength.toNat ≤ 480 := hlen
  have hcnt : (parseMbootInformation st₁).nodeCnt.toNat = st₁.mi.mmapLength.toNat / 24 := by
    rw [nodeCnt, hmi, sizeofMmapEntry, BitVec.toNat_udiv]
    rfl
  rw [entries, hmi, hcnt, mbootMmap_parse, htable haddr]
  refine List.map_congr_left fun i hi ↦ read_copyFrom ?_ (by omega)
  rw [List.mem_range] at hi
  omega

/-! ### When the low halves are enough -/

/-- The addresses that the low halves of an entry describe. -/
def truncated (e : MmapEntry) : Set ℕ :=
  {a | (ramMapOf e).Has a}

/-- The entry lies below 4 GiB, and is not all of it. -/
def FitsU32 (e : MmapEntry) : Prop :=
  e.addr.toNat + e.len.toNat ≤ 2 ^ 32 ∧ e.len.toNat < 2 ^ 32

/-- The entry is no loss to the map. It fits; or it starts above 4 GiB and the low addresses it is
mistaken for are available anyway; or it reaches past 4 GiB, its low half does not, and the part
below 4 GiB that the low half leaves out is recorded for other entries. -/
def Kept (st : Sysinfo) (e : MmapEntry) : Prop :=
  FitsU32 e ∨
    if 2 ^ 32 ≤ e.addr.toNat then ∀ a ∈ truncated e, a ∈ st.availableRam
    else e.addr.toNat + e.len.toNat % 2 ^ 32 ≤ 2 ^ 32 ∧
      ∀ a, e.addr.toNat + e.len.toNat % 2 ^ 32 ≤ a → a < 2 ^ 32 →
        ∃ e' ∈ st.available, a ∈ truncated e'

theorem toNat_low (v : U64) : (low v).toNat = v.toNat % 2 ^ 32 := by
  have h : v.toNat &&& 4294967295 = v.toNat % 2 ^ 32 := Nat.and_two_pow_sub_one_eq_mod v.toNat 32
  rw [low, BitVec.toNat_setWidth, BitVec.toNat_and]
  show (v.toNat &&& 4294967295) % 2 ^ 32 = v.toNat % 2 ^ 32
  rw [h, Nat.mod_mod]

theorem mem_truncated_iff {e : MmapEntry} {a : ℕ} :
    a ∈ truncated e ↔ e.addr.toNat % 2 ^ 32 ≤ a ∧
      a < e.addr.toNat % 2 ^ 32 + e.len.toNat % 2 ^ 32 := by
  rw [← toNat_low, ← toNat_low]
  exact Iff.rfl

theorem mem_describedRam_parse_iff {st : Sysinfo} (h : memMapTaken st.mi) {a : ℕ} :
    a ∈ (parseMbootInformation st).describedRam ↔ ∃ e ∈ st.available, a ∈ truncated e := by
  rw [describedRam, Set.mem_ofPred_eq, getRammapPtr_parse h]
  constructor
  · rintro ⟨r, hr, ha⟩
    obtain ⟨e, he, rfl⟩ := List.mem_map.1 hr
    exact ⟨e, he, ha⟩
  · rintro ⟨e, he, ha⟩
    exact ⟨_, List.mem_map.2 ⟨e, he, rfl⟩, ha⟩

/-- A map whose entries are all kept loses and invents nothing. -/
theorem describedRam_eq_of_kept {st : Sysinfo} (h : memMapTaken st.mi)
    (hkept : ∀ e ∈ st.available, Kept st e) :
    (parseMbootInformation st).describedRam = st.availableRam := by
  ext a
  rw [mem_describedRam_parse_iff h]
  constructor
  · rintro ⟨e, he, ha⟩
    have ha' := mem_truncated_iff.1 ha
    rcases hkept e he with ⟨hend, hlen⟩ | hmiss
    · exact ⟨by omega, e, he, by omega, by omega⟩
    · split at hmiss
      · exact hmiss a ha
      · exact ⟨by omega, e, he, by omega, by omega⟩
  · rintro ⟨ha, e, he, hlo, hhi⟩
    rcases hkept e he with ⟨hend, hlen⟩ | hmiss
    · exact ⟨e, he, mem_truncated_iff.2 ⟨by omega, by omega⟩⟩
    · split at hmiss
      · omega
      · rcases Nat.lt_or_ge a (e.addr.toNat + e.len.toNat % 2 ^ 32) with hlt | hge
        · exact ⟨e, he, mem_truncated_iff.2 ⟨by omega, by omega⟩⟩
        · exact hmiss.2 a hge ha

/-- A map that loses and invents nothing keeps every entry. -/
theorem kept_of_describedRam_eq {st : Sysinfo} (h : memMapTaken st.mi)
    (heq : (parseMbootInformation st).describedRam = st.availableRam) {e : MmapEntry}
    (he : e ∈ st.available) : Kept st e := by
  have hiff : ∀ a, (∃ e ∈ st.available, a ∈ truncated e) ↔ a ∈ st.availableRam := fun a ↦ by
    rw [← mem_describedRam_parse_iff h, heq]
  by_cases hfits : FitsU32 e
  · exact Or.inl hfits
  · refine Or.inr ?_
    split
    · exact fun a ha ↦ (hiff a).1 ⟨e, he, ha⟩
    · rw [FitsU32] at hfits
      refine ⟨Nat.le_of_not_lt fun hlong ↦ ?_, fun a ha hlt ↦ ?_⟩
      · -- the low half would describe the address 4 GiB itself
        have := ((hiff (2 ^ 32)).1 ⟨e, he, mem_truncated_iff.2 ⟨by omega, by omega⟩⟩).1
        exact absurd this (Nat.lt_irrefl _)
      · exact (hiff a).2 ⟨hlt, e, he, by omega, by omega⟩

/-- **The parsed map is the memory map below 4 GiB exactly when every available entry is kept.** -/
theorem readMultibootInformation_describes_iff (m : Mem) (p : U32) (st st' : Sysinfo)
    (hread : readMultibootInformation m p st = some st') (htaken : memMapTaken st'.mi) :
    st'.describedRam = st'.availableRam ↔ ∀ e ∈ st'.available, Kept st' e := by
  obtain ⟨st₁, rfl, -, -, -⟩ := exists_parse_of_read hread
  have havail := available_parse st₁
  have hram : (parseMbootInformation st₁).availableRam = st₁.availableRam := by
    rw [availableRam, availableRam, havail]
  have hkept : ∀ e, Kept (parseMbootInformation st₁) e ↔ Kept st₁ e := fun e ↦ by
    rw [Kept, Kept, hram, havail]
  rw [mi_parse] at htaken
  rw [hram, havail]
  simp only [hkept]
  exact ⟨fun heq e he ↦ kept_of_describedRam_eq htaken heq he,
    fun h ↦ describedRam_eq_of_kept htaken h⟩

/-! ### Two boot memories -/

/-- The memory after a boot loader that reports one available range, with its tables at `0x1000`
and `0x2000`. -/
def bootMem (addr len : U64) : Mem :=
  let info : Mem := ((Mem.store32 (fun _ ↦ 0) 0x1000 multibootInfoMemMap).store32 (0x1000 + 44)
    sizeofMmapEntry).store32 (0x1000 + 48) 0x2000
  let range : Mem := ((info.store32 0x2004 (addr.setWidth 32)).store32 0x2008
    ((addr >>> 32).setWidth 32)).store32 0x200C (len.setWidth 32)
  (range.store32 0x2010 ((len >>> 32).setWidth 32)).store32 0x2014 multibootMemoryAvailable

/-- The tables before they are read. -/
def blank : Sysinfo where
  mi := ⟨0, 0, 0, 0, 0⟩
  mbootMmap := fun _ ↦ 0
  driveInfo := fun _ ↦ 0
  ramMap := fun _ ↦ ⟨0, 0⟩
  ramNodesCnt := 0

/-- A page of memory at 4 GiB is recorded as the page at 0. -/
theorem readMultibootInformation_misdescribes :
    ¬ ∀ (m : Mem) (p : U32) (st st' : Sysinfo), readMultibootInformation m p st = some st' →
      memMapTaken st'.mi → st'.describedRam = st'.availableRam := by
  intro h
  let read := readMultibootInformation (bootMem 0x100000000 0x1000) 0x1000 blank
  have htaken : read.map (fun st ↦ memMapTaken st.mi) = some true := by decide
  have havail : read.map available = some [⟨0x100000000, 0x1000, 1⟩] := by decide
  have hram : read.map getRammapPtr = some [⟨0, 0x1000⟩] := by decide
  obtain ⟨st', hread, hmi⟩ := Option.map_eq_some_iff.1 htaken
  rw [hread, Option.map_some, Option.some_inj] at havail hram
  have hzero : 0 ∈ st'.describedRam := by
    rw [describedRam, hram]
    exact ⟨⟨0, 0x1000⟩, List.mem_singleton_self _, by decide, by decide⟩
  rw [h _ _ _ st' hread hmi] at hzero
  obtain ⟨-, e, he, hlo, -⟩ := hzero
  rw [havail, List.mem_singleton] at he
  subst he
  exact absurd hlo (by decide)

/-- A page of memory at 1 MiB is read as it is. -/
theorem readMultibootInformation_describes_iff_low :
    ∃ st', readMultibootInformation (bootMem 0x100000 0x1000) 0x1000 blank = some st' ∧
      memMapTaken st'.mi ∧ st'.available = [⟨0x100000, 0x1000, 1⟩] ∧
      (st'.describedRam = st'.availableRam ↔ ∀ e ∈ st'.available, Kept st' e) := by
  let read := readMultibootInformation (bootMem 0x100000 0x1000) 0x1000 blank
  have htaken : read.map (fun st ↦ memMapTaken st.mi) = some true := by decide
  have havail : read.map available = some [⟨0x100000, 0x1000, 1⟩] := by decide
  obtain ⟨st', hread, hmi⟩ := Option.map_eq_some_iff.1 htaken
  rw [hread, Option.map_some, Option.some_inj] at havail
  exact ⟨st', hread, hmi, havail,
    readMultibootInformation_describes_iff _ _ blank st' hread hmi⟩

end Sysinfo

end Ganoid
