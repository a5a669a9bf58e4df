import Ganoid.Arch.Sysinfo

/-!
# Absent fields of the multiboot information

`arch/i386/include/sysinfo.h` gives the format of the block a boot loader leaves: after the flags,
every field is present if its flag is set, and says nothing otherwise. A reader of the block should
not depend on what it says nothing about: on two blocks that agree on what is present it should fault
on both or record the same map (`PresentOnly`).

`read_multiboot_information` checks both lengths before it looks at the flags, and
`MULTIBOOT_INFO_MEM_MAP` is flag 5 without `GRUB_V_0_99` where the format has flag 6. So an absent
length decides whether it faults, and the outcome is one of present fields only when both tables are
present, or one is and is too long (`presentOnly_iff`).
-/

namespace Ganoid

open Mem

namespace Sysinfo

/-! ### The documented format -/

/-- The words of `struct multiboot_info` behind the flags: the offset, and the flags of which one
must be set for the word to be present. -/
def multibootFormat : List (ℕ × U32) :=
  [(4, 0x001), (8, 0x001),
   (12, 0x002),
   (16, 0x004),
   (20, 0x008), (24, 0x008),
   (28, 0x030), (32, 0x030), (36, 0x030), (40, 0x030),
   (44, 0x040), (48, 0x040),
   (52, 0x080), (56, 0x080),
   (60, 0x100),
   (64, 0x200),
   (68, 0x400),
   (72, 0x800), (76, 0x800), (80, 0x800), (84, 0x800)]

/-- The bytes that the format describes. -/
def multibootFormatSize : ℕ := 88

/-- Whether `mmap_length` and `mmap_addr` are present. -/
def MmapPresent (mi : MultibootInfo) : Prop := mi.flags &&& 0x40 ≠ 0

/-- Whether `drives_length` and `drives_addr` are present. -/
def DrivesPresent (mi : MultibootInfo) : Prop := mi.flags &&& 0x80 ≠ 0

instance (mi : MultibootInfo) : Decidable (MmapPresent mi) :=
  inferInstanceAs (Decidable (_ ≠ _))

instance (mi : MultibootInfo) : Decidable (DrivesPresent mi) :=
  inferInstanceAs (Decidable (_ ≠ _))

/-- The block at `p'` of `m'` agrees with the one at `p` of `m` on the flags, on every word that is
present, and on the tables that present fields point to. -/
structure AgreesOnPresent (m : Mem) (p : U32) (m' : Mem) (p' : U32) : Prop where
  flags_eq : m'.load32 p' = m.load32 p
  word_eq : ∀ f ∈ multibootFormat, m.load32 p &&& f.2 ≠ 0 →
    m'.load32 (p' + BitVec.ofNat 32 f.1) = m.load32 (p + BitVec.ofNat 32 f.1)
  mmap_eq : MmapPresent (.read m p) → ∀ q,
    InRegion (MultibootInfo.read m p).mmapAddr (MultibootInfo.read m p).mmapLength.toNat q →
      m' q = m q
  drives_eq : DrivesPresent (.read m p) → ∀ q,
    InRegion (MultibootInfo.read m p).drivesAddr (MultibootInfo.read m p).drivesLength.toNat q →
      m' q = m q

/-- The map that `read_multiboot_information` records, with `none` for a fault. -/
def ramOutcome (m : Mem) (p : U32) (st : Sysinfo) : Option ((ℕ → RamMap) × U32) :=
  (readMultibootInformation m p st).map fun st' ↦ (st'.ramMap, st'.ramNodesCnt)

/-- Every block that agrees with this one on what is present has the same outcome. -/
def PresentOnly (m : Mem) (p : U32) (st : Sysinfo) : Prop :=
  ∀ m' p', AgreesOnPresent m p m' p' → ramOutcome m' p' st = ramOutcome m p st

/-! ### Faults -/

theorem ramOutcome_eq_none_iff {m : Mem} {p : U32} {st : Sysinfo} :
    ramOutcome m p st = none ↔
      (MultibootInfo.read m p).mmapLength > sizeofMbootMmap ∨
        (MultibootInfo.read m p).drivesLength > sizeofDriveInfo := by
  rw [ramOutcome, Option.map_eq_none_iff, readMultibootInformation, Option.map_eq_none_iff]
  simp only [saveMultibootInformation]
  split
  · rename_i hlong
    exact ⟨fun _ ↦ Or.inl hlong, fun _ ↦ rfl⟩
  · rename_i hmmap
    split
    · rename_i hlong
      exact ⟨fun _ ↦ Or.inr hlong, fun _ ↦ rfl⟩
    · rename_i hdrives
      exact ⟨fun h ↦ absurd h (by simp), fun h ↦ absurd h (not_or.2 ⟨hmmap, hdrives⟩)⟩

/-! ### Blocks that agree -/

variable {m m' : Mem} {p p' : U32}

theorem AgreesOnPresent.mmap_read (h : AgreesOnPresent m p m' p')
    (hmmap : MmapPresent (.read m p)) :
    (MultibootInfo.read m' p').mmapLength = (MultibootInfo.read m p).mmapLength ∧
      (MultibootInfo.read m' p').mmapAddr = (MultibootInfo.read m p).mmapAddr :=
  ⟨h.word_eq (44, 0x40) (by decide) hmmap, h.word_eq (48, 0x40) (by decide) hmmap⟩

theorem AgreesOnPresent.drives_read (h : AgreesOnPresent m p m' p')
    (hdrives : DrivesPresent (.read m p)) :
    (MultibootInfo.read m' p').drivesLength = (MultibootInfo.read m p).drivesLength ∧
      (MultibootInfo.read m' p').drivesAddr = (MultibootInfo.read m p).drivesAddr :=
  ⟨h.word_eq (52, 0x80) (by decide) hdrives, h.word_eq (56, 0x80) (by decide) hdrives⟩

/-- With both tables present, the whole call is the same. -/
theorem AgreesOnPresent.readMultibootInformation_eq (h : AgreesOnPresent m p m' p')
    (hmmap : MmapPresent (.read m p)) (hdrives : DrivesPresent (.read m p)) (st : Sysinfo) :
    readMultibootInformation m' p' st = readMultibootInformation m p st := by
  obtain ⟨hml, hma⟩ := h.mmap_read hmmap
  obtain ⟨hdl, hda⟩ := h.drives_read hdrives
  have hmi : MultibootInfo.read m' p' = MultibootInfo.read m p := by
    rw [MultibootInfo.read, MultibootInfo.read, MultibootInfo.mk.injEq]
    exact ⟨h.flags_eq, hml, hma, hdl, hda⟩
  simp only [readMultibootInformation, saveMultibootInformation]
  rw [hmi, copyFrom_congr (h.mmap_eq hmmap), copyFrom_congr (h.drives_eq hdrives)]

/-- A table that is present and too long is a fault on both sides. -/
theorem AgreesOnPresent.ramOutcome_eq_none (h : AgreesOnPresent m p m' p')
    (hlong : MmapPresent (.read m p) ∧ (MultibootInfo.read m p).mmapLength > sizeofMbootMmap ∨
      DrivesPresent (.read m p) ∧ (MultibootInfo.read m p).drivesLength > sizeofDriveInfo)
    (st : Sysinfo) : ramOutcome m' p' st = none ∧ ramOutcome m p st = none := by
  rw [ramOutcome_eq_none_iff, ramOutcome_eq_none_iff]
  rcases hlong with ⟨hmmap, hlong⟩ | ⟨hdrives, hlong⟩
  · exact ⟨Or.inl ((h.mmap_read hmmap).1 ▸ hlong), Or.inl hlong⟩
  · exact ⟨Or.inr ((h.drives_read hdrives).1 ▸ hlong), Or.inr hlong⟩

/-! ### Another block that agrees -/

/-- The block of `p`, copied to `p'` and given these two lengths. -/
def relocate (m : Mem) (p p' mmapLength drivesLength : U32) : Mem :=
  ((m.copyFrom p' m p multibootFormatSize).store32 (word p' 11) mmapLength).store32 (word p' 13)
    drivesLength

theorem load32_relocate {ml dl : U32} {k : ℕ} (hk : k < 22) :
    (relocate m p p' ml dl).load32 (word p' k) =
      if k = 13 then dl else if k = 11 then ml else m.load32 (word p k) := by
  have hcopy : (m.copyFrom p' m p multibootFormatSize).load32 (word p' k) = m.load32 (word p k) := by
    refine load32_copyFrom ?_ (by decide)
    rw [BitVec.toNat_ofNat, multibootFormatSize]
    omega
  rw [relocate, load32_store32_word (n := 22) _ (by decide) (by decide) hk,
    load32_store32_word (n := 22) _ (by decide) (by decide) hk, hcopy]

theorem relocate_of_not_inRegion {ml dl q : U32} (h : ¬ InRegion p' multibootFormatSize q) :
    relocate m p p' ml dl q = m q := by
  have hword : ∀ k, k < 22 → ¬ InRegion (word p' k) 4 q := fun k hk hq ↦
    h (inRegion_word (n := 22) (by decide) hk hq)
  rw [relocate, store32_of_not_inRegion (hword 13 (by decide)),
    store32_of_not_inRegion (hword 11 (by decide)), copyFrom]
  exact if_neg h

theorem read_relocate (ml dl : U32) :
    MultibootInfo.read (relocate m p p' ml dl) p' =
      { MultibootInfo.read m p with mmapLength := ml, drivesLength := dl } := by
  have hword := fun k ↦ @load32_relocate m p p' ml dl k
  rw [MultibootInfo.read, MultibootInfo.read, MultibootInfo.mk.injEq]
  refine ⟨?_, hword 11 (by decide), hword 12 (by decide), hword 13 (by decide), hword 14 (by decide)⟩
  have hflags := hword 0 (by decide)
  rwa [word_zero, word_zero] at hflags

/-- A copied block agrees with the original if present lengths are kept and the block stays off the
tables that are present. -/
theorem agreesOnPresent_relocate {ml dl : U32}
    (hml : MmapPresent (.read m p) → ml = (MultibootInfo.read m p).mmapLength)
    (hdl : DrivesPresent (.read m p) → dl = (MultibootInfo.read m p).drivesLength)
    (hmmap : MmapPresent (.read m p) → ∀ q,
      InRegion (MultibootInfo.read m p).mmapAddr (MultibootInfo.read m p).mmapLength.toNat q →
        ¬ InRegion p' multibootFormatSize q)
    (hdrives : DrivesPresent (.read m p) → ∀ q,
      InRegion (MultibootInfo.read m p).drivesAddr (MultibootInfo.read m p).drivesLength.toNat q →
        ¬ InRegion p' multibootFormatSize q) :
    AgreesOnPresent m p (relocate m p p' ml dl) p' where
  flags_eq := congrArg MultibootInfo.flags (read_relocate ml dl)
  word_eq := by
    intro f hf hset
    obtain ⟨k, hk, hoff⟩ : ∃ k < 22, f.1 = 4 * k := by
      have hall : ∀ f ∈ multibootFormat, ∃ k < 22, f.1 = 4 * k := by decide
      exact hall f hf
    have hmask : (k = 13 → f.2 = 0x80) ∧ (k = 11 → f.2 = 0x40) := by
      have hall : ∀ f ∈ multibootFormat, (f.1 = 52 → f.2 = 0x80) ∧ (f.1 = 44 → f.2 = 0x40) := by
        decide
      obtain ⟨h₁, h₂⟩ := hall f hf
      exact ⟨fun hk ↦ h₁ (by omega), fun hk ↦ h₂ (by omega)⟩
    rw [hoff]
    refine (load32_relocate hk).trans ?_
    split
    · rename_i hk
      rw [hmask.1 hk] at hset
      rw [hdl hset, hk]
      rfl
    · split
      · rename_i hk
        rw [hmask.2 hk] at hset
        rw [hml hset, hk]
        rfl
      · rfl
  mmap_eq hpres q hq := relocate_of_not_inRegion (hmmap hpres q hq)
  drives_eq hpres q hq := relocate_of_not_inRegion (hdrives hpres q hq)

/-- A block behind a table does not meet it. -/
theorem not_inRegion_behind {a len q : U32} (hlen : len.toNat ≤ 480)
    (hq : InRegion a len.toNat q) : ¬ InRegion (a + len) multibootFormatSize q := by
  rw [InRegion, multibootFormatSize] at *
  bv_omega

/-- The copies of a block that agree with it all fault or none does, if the outcome is one of present
fields only. -/
theorem PresentOnly.faults_iff {st : Sysinfo} (h : PresentOnly m p st) {ml dl ml' dl' : U32}
    (hagree : AgreesOnPresent m p (relocate m p p' ml dl) p')
    (hagree' : AgreesOnPresent m p (relocate m p p' ml' dl') p') :
    (ml > sizeofMbootMmap ∨ dl > sizeofDriveInfo) ↔
      (ml' > sizeofMbootMmap ∨ dl' > sizeofDriveInfo) := by
  have heq := (h _ _ hagree).trans (h _ _ hagree').symm
  have hnone := @ramOutcome_eq_none_iff (relocate m p p' ml dl) p' st
  have hnone' := @ramOutcome_eq_none_iff (relocate m p p' ml' dl') p' st
  rw [read_relocate] at hnone hnone'
  rw [heq] at hnone
  exact hnone.symm.trans hnone'

/-- With the memory map absent, its length decides unless the drives are present and too long. -/
theorem PresentOnly.of_not_mmapPresent {st : Sysinfo} (h : PresentOnly m p st)
    (hmmap : ¬ MmapPresent (.read m p)) :
    DrivesPresent (.read m p) ∧ (MultibootInfo.read m p).drivesLength > sizeofDriveInfo := by
  by_contra hshort
  have hagree : ∀ ml, AgreesOnPresent m p (relocate m p
      ((MultibootInfo.read m p).drivesAddr + (MultibootInfo.read m p).drivesLength) ml
      (if DrivesPresent (.read m p) then (MultibootInfo.read m p).drivesLength else 0)) _ :=
    fun ml ↦ agreesOnPresent_relocate (fun hpres ↦ absurd hpres hmmap) (fun hpres ↦ if_pos hpres)
      (fun hpres ↦ absurd hpres hmmap) fun hpres q hq ↦ by
        have hlen := BitVec.not_lt.1 fun hlong ↦ hshort ⟨hpres, hlong⟩
        exact not_inRegion_behind (le_trans hlen (by decide)) hq
  have hdl : ¬ (if DrivesPresent (.read m p) then (MultibootInfo.read m p).drivesLength else 0) >
      sizeofDriveInfo := by
    split
    · rename_i hpres
      exact fun hlong ↦ hshort ⟨hpres, hlong⟩
    · decide
  have hiff := h.faults_iff (hagree 481) (hagree 0)
  exact absurd (hiff.1 (Or.inl (by decide))) (not_or.2 ⟨by decide, hdl⟩)

/-- With the drives absent, their length decides unless the memory map is too long. -/
theorem PresentOnly.of_not_drivesPresent {st : Sysinfo} (h : PresentOnly m p st)
    (hdrives : ¬ DrivesPresent (.read m p)) :
    (MultibootInfo.read m p).mmapLength > sizeofMbootMmap := by
  by_contra hshort
  have hlen := BitVec.not_lt.1 hshort
  have hagree : ∀ dl, AgreesOnPresent m p (relocate m p
      ((MultibootInfo.read m p).mmapAddr + (MultibootInfo.read m p).mmapLength)
      (MultibootInfo.read m p).mmapLength dl) _ :=
    fun dl ↦ agreesOnPresent_relocate (fun _ ↦ rfl) (fun hpres ↦ absurd hpres hdrives)
      (fun _ q hq ↦ not_inRegion_behind hlen hq) fun hpres ↦ absurd hpres hdrives
  have hiff := h.faults_iff (hagree 281) (hagree 0)
  exact absurd (hiff.1 (Or.inr (by decide))) (not_or.2 ⟨hshort, by decide⟩)

/-- **The outcome is one of present fields only when** both tables are present, or one is and is too
long. -/
theorem presentOnly_iff (m : Mem) (p : U32) (st : Sysinfo) :
    PresentOnly m p st ↔
      MmapPresent (.read m p) ∧ DrivesPresent (.read m p) ∨
        (MmapPresent (.read m p) ∧ (MultibootInfo.read m p).mmapLength > sizeofMbootMmap ∨
          DrivesPresent (.read m p) ∧
            (MultibootInfo.read m p).drivesLength > sizeofDriveInfo) := by
  constructor
  · intro h
    by_cases hmmap : MmapPresent (.read m p)
    · by_cases hdrives : DrivesPresent (.read m p)
      · exact Or.inl ⟨hmmap, hdrives⟩
      · exact Or.inr (Or.inl ⟨hmmap, h.of_not_drivesPresent hdrives⟩)
    · exact Or.inr (Or.inr (h.of_not_mmapPresent hmmap))
  · rintro (⟨hmmap, hdrives⟩ | hlong) m' p' hagree
    · rw [ramOutcome, ramOutcome, hagree.readMultibootInformation_eq hmmap hdrives]
    · obtain ⟨hnone', hnone⟩ := hagree.ramOutcome_eq_none hlong st
      exact hnone'.trans hnone.symm

/-- Without any flag set, the length of the memory map decides whether the read faults. -/
theorem not_presentOnly_absent_length :
    ¬ ∀ (m : Mem) (p : U32) (m' : Mem) (p' : U32) (st : Sysinfo), AgreesOnPresent m p m' p' →
      ramOutcome m' p' st = ramOutcome m p st := by
  intro h
  have hzero : ∀ f : ℕ × U32, Mem.load32 (fun _ ↦ 0) 0x1000 &&& f.2 = 0 := fun f ↦
    BitVec.zero_and
  have hagree : AgreesOnPresent (fun _ ↦ 0) 0x1000
      (Mem.store32 (fun _ ↦ 0) (0x1000 + 44) 481) 0x1000 :=
    { flags_eq := by decide
      word_eq := fun f _ hset ↦ absurd (hzero f) hset
      mmap_eq := fun hset ↦ absurd hset (by decide)
      drives_eq := fun hset ↦ absurd hset (by decide) }
  have heq := congrArg Option.isSome (h _ _ _ _ blank hagree)
  exact absurd heq (by decide)

end Sysinfo

end Ganoid
