import Ganoid.Library.ByteStrings

/-!
# The tables of the i386

What the processor makes of the tables that an operating system puts into memory: the descriptors of
segments and of interrupt gates, eight bytes each, and the two levels of page tables. Nothing is
said about how the bits got there.

The base of a segment, its limit and the offset of a gate are scattered over their descriptors;
`Segment.decode` and `Gate.decode` collect them. An interrupt goes through both tables (`enter`):
from its vector to a gate, from the gate to a segment, and from the segment to an address. A linear
address goes through the page directory and a page table (`translate`), and comes out unchanged
below the page frame.
-/

namespace I386

/-! ### Segments -/

/-- What a segment descriptor says. -/
structure Segment where
  base : BitVec 32
  limit : BitVec 20
  type : BitVec 4
  /-- Code or data, and not a segment of the system. -/
  codeOrData : Bool
  privilege : BitVec 2
  present : Bool
  /-- Operands have 32 bits. -/
  big : Bool
  /-- The limit counts pages. -/
  granular : Bool
  deriving DecidableEq

/-- The fields of a segment descriptor. -/
def Segment.decode (d : BitVec 64) : Segment where
  base := (d.extractLsb' 56 8 ++ d.extractLsb' 16 24 : BitVec (8 + 24))
  limit := (d.extractLsb' 48 4 ++ d.extractLsb' 0 16 : BitVec (4 + 16))
  type := d.extractLsb' 40 4
  codeOrData := d.getLsbD 44
  privilege := d.extractLsb' 45 2
  present := d.getLsbD 47
  big := d.getLsbD 54
  granular := d.getLsbD 55

/-- The last offset in the segment, if it does not expand down. -/
def Segment.lastOffset (s : Segment) : ℕ :=
  if s.granular then 4096 * s.limit.toNat + 4095 else s.limit.toNat

/-- Instructions can be fetched from the segment. -/
def Segment.Executable (s : Segment) : Prop :=
  s.present = true ∧ s.codeOrData = true ∧ s.type.getLsbD 3 = true

instance (s : Segment) : Decidable s.Executable :=
  inferInstanceAs (Decidable (_ ∧ _ ∧ _))

/-! ### Gates -/

/-- What the descriptor of a gate says. -/
structure Gate where
  offset : BitVec 32
  selector : BitVec 16
  type : BitVec 5
  privilege : BitVec 2
  present : Bool
  deriving DecidableEq

/-- The fields of a gate. -/
def Gate.decode (d : BitVec 64) : Gate where
  offset := (d.extractLsb' 48 16 ++ d.extractLsb' 0 16 : BitVec (16 + 16))
  selector := d.extractLsb' 16 16
  type := d.extractLsb' 40 5
  privilege := d.extractLsb' 45 2
  present := d.getLsbD 47

/-- The type of an interrupt gate of 32 bits, which turns interrupts off. -/
def interruptGate : BitVec 5 := 0b01110

/-- The type of a trap gate of 32 bits, which leaves them as they are. -/
def trapGate : BitVec 5 := 0b01111

/-! ### Descriptor tables -/

/-- A descriptor table and the limit that its register has, the offset of its last byte. -/
structure Table where
  entry : ℕ → BitVec 64
  limit : BitVec 16

/-- The descriptor with an index, if all of its bytes are within the limit. -/
def Table.fetch (t : Table) (index : ℕ) : Option (BitVec 64) :=
  if 8 * index + 7 ≤ t.limit.toNat then some (t.entry index) else none

theorem Table.fetch_of_le {t : Table} {index : ℕ} (h : 8 * index + 7 ≤ t.limit.toNat) :
    t.fetch index = some (t.entry index) :=
  if_pos h

theorem Table.fetch_of_gt {t : Table} {index : ℕ} (h : t.limit.toNat < 8 * index + 7) :
    t.fetch index = none :=
  if_neg (Nat.not_le.2 h)

/-- Where an interrupt goes. -/
structure Entry where
  /-- The linear address of the first instruction. -/
  address : BitVec 32
  selector : BitVec 16
  turnsInterruptsOff : Bool
  deriving DecidableEq

/-- The delivery of an interrupt up to its first instruction, through a gate of 32 bits and the
table of global segments. Where it is `none` the processor delivers an exception in its place. -/
def enter (gdt idt : Table) (vector : ℕ) : Option Entry :=
  (idt.fetch vector).bind fun d ↦
    let g := Gate.decode d
    if g.present = true ∧ (g.type = interruptGate ∨ g.type = trapGate) ∧
        g.selector.getLsbD 2 = false then
      (gdt.fetch (g.selector >>> 3).toNat).bind fun e ↦
        let s := Segment.decode e
        if s.Executable ∧ g.offset.toNat ≤ s.lastOffset then
          some ⟨s.base + g.offset, g.selector, g.type == interruptGate⟩
        else none
    else none

/-- **The way of an interrupt** through a gate and a segment that allow it. -/
theorem enter_of_fetch {gdt idt : Table} {vector : ℕ} {d e : BitVec 64}
    (hgate : idt.fetch vector = some d)
    (hvalid : (Gate.decode d).present = true ∧
      ((Gate.decode d).type = interruptGate ∨ (Gate.decode d).type = trapGate) ∧
      (Gate.decode d).selector.getLsbD 2 = false)
    (hsegment : gdt.fetch ((Gate.decode d).selector >>> 3).toNat = some e)
    (hinside : (Segment.decode e).Executable ∧
      (Gate.decode d).offset.toNat ≤ (Segment.decode e).lastOffset) :
    enter gdt idt vector = some ⟨(Segment.decode e).base + (Gate.decode d).offset,
      (Gate.decode d).selector, (Gate.decode d).type == interruptGate⟩ := by
  rw [enter, hgate, Option.bind_some, if_pos hvalid, hsegment, Option.bind_some, if_pos hinside]

/-! ### Page tables -/

/-- An entry of a page directory or a page table is in use. -/
def presentBit (entry : BitVec 32) : Bool := entry.getLsbD 0

/-- The address that an entry has in its upper bits. -/
def frameOf (entry : BitVec 32) : BitVec 32 := entry &&& 0xFFFFF000

/-- The physical address of a linear one, where the directory at `cr3` has pages of four kilobytes.
Where it is `none` the processor delivers a page fault. -/
def translate (m : Mem) (cr3 linear : BitVec 32) : Option (BitVec 32) :=
  let pde := m.load32 (Mem.word (frameOf cr3) (linear.toNat / 2 ^ 22))
  if presentBit pde then
    let pte := m.load32 (Mem.word (frameOf pde) (linear.toNat / 2 ^ 12 % 2 ^ 10))
    if presentBit pte then some (frameOf pte + BitVec.ofNat 32 (linear.toNat % 2 ^ 12)) else none
  else none

theorem toNat_frameOf (entry : BitVec 32) :
    (frameOf entry).toNat = 4096 * (entry.toNat / 4096) := by
  have hfield : frameOf entry = entry >>> 12 <<< 12 := by
    have hmask : ∀ i : Fin 32, (0xFFFFF000 : BitVec 32).getLsbD i = decide (12 ≤ (i : ℕ)) := by
      decide
    refine BitVec.eq_of_getLsbD_eq fun i hi ↦ ?_
    have h := hmask ⟨i, hi⟩
    simp only [frameOf, BitVec.getLsbD_and, BitVec.getLsbD_shiftLeft, BitVec.getLsbD_ushiftRight]
    grind
  rw [hfield, BitVec.toNat_shiftLeft, BitVec.toNat_ushiftRight, Nat.shiftRight_eq_div_pow,
    Nat.shiftLeft_eq]
  have hlt := entry.isLt
  omega

/-- A page is the addresses of one frame. -/
theorem inRegion_frame_iff {p q : BitVec 32} (hp : frameOf p = p) :
    Mem.InRegion p 4096 q ↔ frameOf q = p := by
  have hbase := toNat_frameOf p
  have hframe := toNat_frameOf q
  rw [hp] at hbase
  rw [Mem.InRegion, BitVec.toNat_sub, ← BitVec.toNat_inj, hframe]
  have hlt := q.isLt
  omega

/-- The page at `p` holds the table `t`. -/
def HoldsTable (m : Mem) (p : BitVec 32) (t : ℕ → BitVec 32) : Prop :=
  ∀ k, k < 2 ^ 10 → m.load32 (Mem.word p k) = t k

/-- A page that was cleared. -/
theorem holdsTable_fill (m : Mem) (p : BitVec 32) :
    HoldsTable (m.fill p 4096 0) p fun _ ↦ 0 := fun k hk ↦ by
  have hzero : ∀ q, Mem.InRegion (Mem.word p k) 4 q → m.fill p 4096 0 q = (fun _ ↦ 0 : Mem) q :=
    fun q hq ↦ Mem.fill_of_inRegion (Mem.inRegion_word (n := 2 ^ 10) (by decide) hk hq)
  rw [Mem.load32_congr hzero]
  show (0 ++ 0 ++ 0 ++ 0 : BitVec (8 + 8 + 8 + 8)) = 0
  decide

namespace HoldsTable

variable {m : Mem} {p p' : BitVec 32} {t : ℕ → BitVec 32}

/-- Only what is written into its page changes a table. -/
theorem congr {m' : Mem} (h : HoldsTable m p t)
    (hagree : ∀ q, Mem.InRegion p 4096 q → m' q = m q) : HoldsTable m' p t := fun k hk ↦ by
  rw [← h k hk]
  exact Mem.load32_congr fun q hq ↦ hagree q (Mem.inRegion_word (n := 2 ^ 10) (by decide) hk hq)

/-- An entry is written. -/
theorem store32 (h : HoldsTable m p t) {j : ℕ} (hj : j < 2 ^ 10) (v : BitVec 32) :
    HoldsTable (m.store32 (Mem.word p j) v) p (Function.update t j v) := fun k hk ↦ by
  rw [Mem.load32_store32_word (n := 2 ^ 10) m (by decide) hj hk, h k hk, Function.update_apply]

/-- An entry of another table is written. -/
theorem store32_of_ne (h : HoldsTable m p t) (hp : frameOf p = p) (hp' : frameOf p' = p')
    (hne : p' ≠ p) {j : ℕ} (hj : j < 2 ^ 10) (v : BitVec 32) :
    HoldsTable (m.store32 (Mem.word p' j) v) p t :=
  h.congr fun q hq ↦ Mem.store32_of_not_inRegion fun hq' ↦ hne <|
    ((inRegion_frame_iff hp').1 (Mem.inRegion_word (n := 2 ^ 10) (by decide) hj hq')).symm.trans
      ((inRegion_frame_iff hp).1 hq)

/-- Several entries are written, one after the other. -/
theorem foldl_store32 (h : HoldsTable m p t) {js : List ℕ} (hjs : ∀ j ∈ js, j < 2 ^ 10)
    (v : ℕ → BitVec 32) :
    HoldsTable (js.foldl (fun m j ↦ m.store32 (Mem.word p j) (v j)) m) p
      (fun k ↦ if k ∈ js then v k else t k) := by
  induction js generalizing m t with
  | nil => exact h
  | cons j js ih =>
    have hrest := ih (h.store32 (hjs j List.mem_cons_self) (v j)) fun i hi ↦
      hjs i (List.mem_cons_of_mem j hi)
    intro k hk
    rw [List.foldl_cons, hrest k hk]
    dsimp only
    rw [Function.update_apply]
    grind

/-- Several entries of another table are written. -/
theorem foldl_store32_of_ne (h : HoldsTable m p t) (hp : frameOf p = p) (hp' : frameOf p' = p')
    (hne : p' ≠ p) {js : List ℕ} (hjs : ∀ j ∈ js, j < 2 ^ 10) (v : ℕ → BitVec 32) :
    HoldsTable (js.foldl (fun m j ↦ m.store32 (Mem.word p' j) (v j)) m) p t := by
  induction js generalizing m with
  | nil => exact h
  | cons j js ih =>
    exact ih (h.store32_of_ne hp hp' hne (hjs j List.mem_cons_self) (v j)) fun i hi ↦
      hjs i (List.mem_cons_of_mem j hi)

end HoldsTable

/-- **The page walk**, over tables that are known. -/
theorem translate_of_holdsTable {m : Mem} {cr3 linear : BitVec 32} {directory : ℕ → BitVec 32}
    (h : HoldsTable m (frameOf cr3) directory) {t : ℕ → BitVec 32}
    (htable : HoldsTable m (frameOf (directory (linear.toNat / 2 ^ 22))) t) :
    translate m cr3 linear =
      if presentBit (directory (linear.toNat / 2 ^ 22)) = true ∧
        presentBit (t (linear.toNat / 2 ^ 12 % 2 ^ 10)) = true then
        some (frameOf (t (linear.toNat / 2 ^ 12 % 2 ^ 10)) +
          BitVec.ofNat 32 (linear.toNat % 2 ^ 12))
      else none := by
  have hindex : linear.toNat / 2 ^ 22 < 2 ^ 10 := by
    have hlt := linear.isLt
    omega
  dsimp only [translate]
  rw [h _ hindex, htable _ (Nat.mod_lt _ (by decide)), ite_and]

end I386
