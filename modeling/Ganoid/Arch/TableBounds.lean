import Ganoid.Arch.Sysinfo

/-!
# The tables of the multiboot parser and their bounds

`parse_mboot_information` of `arch/i386/lib/sysinfo.c` with a log of the array elements it accesses.
The log names an element once for all the accesses that one statement block makes to it. The parser
also follows `start_port_array` of each drive, a pointer to memory outside its tables; this walk is
not modelled, and where it does not end the accesses made are the first ones of the log.

The counts are derived from lengths that `read_multiboot_information` has checked, so `mboot_mmap`,
`ram_map` and `drive_info` are never left (`inBounds_traceMemMap_iff`, `inBounds_traceDrives_iff`). The
names of the boot devices are five, but the initializer of `drivestr` lacks a comma before the last
one and has four entries, so a drive that is none of the four known ones is looked up behind the end
(`traceRead_inBounds_iff`).
-/

namespace Ganoid

namespace Sysinfo

/-- `DRIVE_INFO_NODE_CNT`, the entries of `drive_info`. -/
def driveInfoNodeCnt : U32 := 20

/-- `sizeof(struct bios_drive_info)`; the structure is packed. -/
def sizeofBiosDriveInfo : U32 := 14

/-- `MULTIBOOT_INFO_BOOTDEV`. -/
def multibootInfoBootdev : U32 := 0x2

/-- `MULTIBOOT_INFO_DRIVE_INFO`. -/
def multibootInfoDriveInfo : U32 := 0x80

/-- `drivestr`. Adjacent string literals are one literal. -/
def drivestr : List String :=
  ["1st floppy disk\x00",
   "2nd floppy disk\x00",
   "1st hard disk\x00",
   "2nd hard disk\x00" ++ "unknown medium\x00"]

/-- An access to an element of one of the tables. -/
inductive TableAccess
  | drivestr (k : ℕ)
  | mbootMmap (i : ℕ)
  | ramMap (i : ℕ)
  | driveInfo (i : ℕ)
  deriving DecidableEq

/-- The element is one of the table's. -/
def TableAccess.InBounds : TableAccess → Prop
  | .drivestr k => k < Sysinfo.drivestr.length
  | .mbootMmap i => i < addrMapNodeCnt.toNat
  | .ramMap i => i < addrMapNodeCnt.toNat
  | .driveInfo i => i < driveInfoNodeCnt.toNat

/-- The tables, and the accesses made so far, in order. -/
structure ParseTrace where
  st : Sysinfo
  log : List TableAccess

/-- `drive` of `parse_mboot_information`. -/
def bootDrive (bootDevice : U32) : U32 := (bootDevice &&& 0xFF000000) >>> 24

/-- The index in the switch over the boot drive. -/
def drivestrIndex (drive : U32) : ℕ :=
  if drive = 0 then 0
  else if drive = 1 then 1
  else if drive = 0x80 then 2
  else if drive = 0x81 then 3
  else 4

/-- The boot-device branch of `parse_mboot_information`. -/
def traceBootDevice (bootDevice : U32) (t : ParseTrace) : ParseTrace :=
  if t.st.mi.flags &&& multibootInfoBootdev ≠ 0 then
    { t with log := t.log ++ [.drivestr (drivestrIndex (bootDrive bootDevice))] }
  else t

/-- One pass of the loop over the memory map. -/
def traceEntry (t : ParseTrace) (i : ℕ) : ParseTrace where
  st := parseEntry t.st i
  log := t.log ++ .mbootMmap i ::
    if (MmapEntry.read t.st.mbootMmap 0 i).type = multibootMemoryAvailable then
      [.ramMap t.st.ramNodesCnt.toNat]
    else []

/-- The memory-map branch of `parse_mboot_information`. -/
def traceMemMap (t : ParseTrace) : ParseTrace :=
  if memMapTaken t.st.mi then
    (List.range t.st.nodeCnt.toNat).foldl traceEntry { t with st := { t.st with ramNodesCnt := 0 } }
  else t

/-- The drive-info branch of `parse_mboot_information`. -/
def traceDrives (t : ParseTrace) : ParseTrace :=
  if t.st.mi.flags &&& multibootInfoDriveInfo ≠ 0 then
    let nodeCnt := t.st.mi.drivesLength / sizeofBiosDriveInfo
    { t with log := t.log ++ (List.range nodeCnt.toNat).map .driveInfo }
  else t

/-- `parse_mboot_information`, with its accesses. -/
def traceParse (bootDevice : U32) (st : Sysinfo) : ParseTrace :=
  traceDrives (traceMemMap (traceBootDevice bootDevice ⟨st, []⟩))

/-- `read_multiboot_information`, with the accesses of the parser. -/
def traceRead (m : Mem) (p : U32) (st : Sysinfo) : Option ParseTrace :=
  (saveMultibootInformation m p st).map (traceParse (m.load32 (p + 12)))

/-! ### The log is of the parser -/

@[simp]
theorem st_traceBootDevice (bootDevice : U32) (t : ParseTrace) :
    (traceBootDevice bootDevice t).st = t.st := by
  rw [traceBootDevice]
  split <;> rfl

@[simp]
theorem st_traceDrives (t : ParseTrace) : (traceDrives t).st = t.st := by
  rw [traceDrives]
  split <;> rfl

theorem st_foldl_traceEntry (l : List ℕ) (t : ParseTrace) :
    (l.foldl traceEntry t).st = l.foldl parseEntry t.st := by
  induction l generalizing t with
  | nil => rfl
  | cons i l ih => exact ih (traceEntry t i)

@[simp]
theorem st_traceMemMap (t : ParseTrace) : (traceMemMap t).st = parseMbootInformation t.st := by
  rw [traceMemMap, parseMbootInformation]
  split
  · exact st_foldl_traceEntry _ _
  · rfl

/-- The tables are left as the parser leaves them. -/
theorem st_traceRead (m : Mem) (p : U32) (st : Sysinfo) :
    (traceRead m p st).map ParseTrace.st = readMultibootInformation m p st := by
  have hparse : ∀ bootDevice, ParseTrace.st ∘ traceParse bootDevice = parseMbootInformation :=
    fun bootDevice ↦ funext fun st ↦ by simp [traceParse]
  rw [traceRead, Option.map_map, hparse, readMultibootInformation]

/-! ### Bounds -/

/-- Every access is to an element of its table. -/
def InBounds (log : List TableAccess) : Prop :=
  ∀ a ∈ log, a.InBounds

theorem inBounds_append_iff {log log' : List TableAccess} :
    InBounds (log ++ log') ↔ InBounds log ∧ InBounds log' :=
  List.forall_mem_append

/-- Whether the boot device is a drive that has a name. -/
def KnownDrive (bootDevice : U32) : Prop :=
  bootDrive bootDevice ∈ [0, 1, 0x80, 0x81]

theorem drivestrIndex_lt_iff (bootDevice : U32) :
    drivestrIndex (bootDrive bootDevice) < drivestr.length ↔ KnownDrive bootDevice := by
  have hlength : drivestr.length = 4 := rfl
  rw [hlength, drivestrIndex, KnownDrive]
  simp only [List.mem_cons, List.not_mem_nil, or_false]
  grind

theorem inBounds_traceBootDevice_iff (bootDevice : U32) (st : Sysinfo) :
    InBounds (traceBootDevice bootDevice ⟨st, []⟩).log ↔
      (st.mi.flags &&& multibootInfoBootdev ≠ 0 → KnownDrive bootDevice) := by
  rw [traceBootDevice]
  split
  · rename_i hset
    rw [imp_iff_right hset, ← drivestrIndex_lt_iff]
    exact List.forall_mem_singleton
  · rename_i hclear
    exact iff_of_true (fun a ha ↦ absurd ha List.not_mem_nil) fun hset ↦ absurd hset hclear

/-- What the loop over the memory map keeps: no more ranges than entries have been recorded, and no
access has left its table that had not before. -/
structure Tracing (t₀ t : ParseTrace) (n : ℕ) : Prop where
  mi_eq : t.st.mi = t₀.st.mi
  cnt_le : t.st.ramNodesCnt.toNat ≤ n
  inBounds_iff : InBounds t.log ↔ InBounds t₀.log

theorem Tracing.step {t₀ t : ParseTrace} {n : ℕ} (h : Tracing t₀ t n) (hn : n < 20) :
    Tracing t₀ (traceEntry t n) (n + 1) := by
  have hcnt := h.cnt_le
  have hmap : (TableAccess.mbootMmap n).InBounds := hn
  rw [traceEntry, parseEntry]
  split
  · rename_i htype
    refine ⟨h.mi_eq, ?_, ?_⟩
    · dsimp only
      bv_omega
    · have hram : (TableAccess.ramMap t.st.ramNodesCnt.toNat).InBounds := Nat.lt_of_le_of_lt hcnt hn
      rw [inBounds_append_iff, h.inBounds_iff]
      exact and_iff_left (List.forall_mem_cons.2 ⟨hmap, List.forall_mem_singleton.2 hram⟩)
  · refine ⟨h.mi_eq, Nat.le_succ_of_le hcnt, ?_⟩
    rw [inBounds_append_iff, h.inBounds_iff]
    exact and_iff_left (List.forall_mem_singleton.2 hmap)

theorem tracing_foldl (t : ParseTrace) {n : ℕ} (hn : n ≤ 20) :
    Tracing t ((List.range n).foldl traceEntry { t with st := { t.st with ramNodesCnt := 0 } }) n := by
  induction n with
  | zero => exact ⟨rfl, Nat.le_refl _, Iff.rfl⟩
  | succ n ih =>
    rw [List.range_succ, List.foldl_append]
    exact (ih (by omega)).step hn

/-- The checked length keeps the memory map and the ranges recorded inside their tables. -/
theorem inBounds_traceMemMap_iff {t : ParseTrace} (hlen : t.st.mi.mmapLength ≤ sizeofMbootMmap) :
    InBounds (traceMemMap t).log ↔ InBounds t.log := by
  have hcnt : t.st.nodeCnt.toNat ≤ 20 := by
    have hlen' : t.st.mi.mmapLength.toNat ≤ 480 := hlen
    rw [nodeCnt, BitVec.toNat_udiv]
    exact Nat.div_le_of_le_mul hlen'
  rw [traceMemMap]
  split
  · exact (tracing_foldl t hcnt).inBounds_iff
  · rfl

/-- The checked length keeps the drives inside their table. -/
theorem inBounds_traceDrives_iff {t : ParseTrace} (hlen : t.st.mi.drivesLength ≤ sizeofDriveInfo) :
    InBounds (traceDrives t).log ↔ InBounds t.log := by
  have hcnt : (t.st.mi.drivesLength / sizeofBiosDriveInfo).toNat ≤ 20 := by
    have hlen' : t.st.mi.drivesLength.toNat ≤ 280 := hlen
    rw [BitVec.toNat_udiv]
    exact Nat.div_le_of_le_mul hlen'
  rw [traceDrives]
  split
  · rw [inBounds_append_iff]
    refine and_iff_left fun a ha ↦ ?_
    obtain ⟨i, hi, rfl⟩ := List.mem_map.1 ha
    exact Nat.lt_of_lt_of_le (List.mem_range.1 hi) hcnt
  · rfl

/-- **The parser stays inside its tables exactly when** the block names no boot device, or one of the
four drives. -/
theorem traceRead_inBounds_iff (m : Mem) (p : U32) (st : Sysinfo) (t : ParseTrace)
    (hread : traceRead m p st = some t) :
    InBounds t.log ↔
      (m.load32 p &&& multibootInfoBootdev ≠ 0 → KnownDrive (m.load32 (p + 12))) := by
  obtain ⟨st₁, hsave, rfl⟩ := Option.map_eq_some_iff.1 hread
  obtain ⟨hmi, hmmap, hdrives, -⟩ := of_saveMultibootInformation hsave
  have hflags : st₁.mi.flags = m.load32 p := congrArg MultibootInfo.flags hmi
  rw [traceParse, inBounds_traceDrives_iff, inBounds_traceMemMap_iff,
    inBounds_traceBootDevice_iff, hflags]
  · rwa [st_traceBootDevice]
  · rwa [st_traceMemMap, mi_parse, st_traceBootDevice]

/-- The memory after a boot loader that names only the boot device. -/
def bootedFrom (bootDevice : U32) : Mem :=
  (Mem.store32 (fun _ ↦ 0) 0x1000 multibootInfoBootdev).store32 (0x1000 + 12) bootDevice

/-- A boot from the first hard disk looks up its name. -/
theorem traceRead_inBounds_iff_disk :
    ∃ t, traceRead (bootedFrom 0x80FFFFFF) 0x1000 blank = some t ∧ t.log = [.drivestr 2] ∧
      (InBounds t.log ↔
        ((bootedFrom 0x80FFFFFF).load32 0x1000 &&& multibootInfoBootdev ≠ 0 →
          KnownDrive ((bootedFrom 0x80FFFFFF).load32 (0x1000 + 12)))) := by
  have hlog : (traceRead (bootedFrom 0x80FFFFFF) 0x1000 blank).map ParseTrace.log =
      some [.drivestr 2] := by decide
  obtain ⟨t, hread, hlog⟩ := Option.map_eq_some_iff.1 hlog
  exact ⟨t, hread, hlog, traceRead_inBounds_iff _ _ blank t hread⟩

/-- A boot from a CD reads behind the names. -/
theorem traceRead_not_inBounds_cd :
    ¬ ∀ (m : Mem) (p : U32) (st : Sysinfo) (t : ParseTrace), traceRead m p st = some t →
      InBounds t.log := by
  intro h
  have hlog : (traceRead (bootedFrom 0xE0FFFFFF) 0x1000 blank).map ParseTrace.log =
      some [.drivestr 4] := by decide
  obtain ⟨t, hread, hlog⟩ := Option.map_eq_some_iff.1 hlog
  have hin : (TableAccess.drivestr 4).InBounds := h _ _ _ t hread _ (hlog ▸ List.mem_singleton_self _)
  exact absurd hin (Nat.lt_irrefl 4)

end Sysinfo

end Ganoid
