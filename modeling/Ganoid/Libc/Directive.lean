import Ganoid.Libc.Digits
import Ganoid.Libc.Vsprintf
import Mathlib.Data.List.TakeWhile

/-!
# Reading a conversion

What `vsprintf` reads of a conversion before it calls `realize_string`: flags, width, precision and
length modifier, which are a directive here, and the character of a specifier. A directive *spells*
its part of the format, and its width may take an argument. Digits that start a width do not start
with 0, which would be a flag.

One pass through the loop either leaves, at the NUL that ends the format, or calls `realize_string`
and goes round. The variables with which it does are those of `readCall`, and `Calls s c` says that
the loop from `s` makes the call `c`. A literal character is copied without a pass of its own, so
that the loop *goes* from one state to another by copying characters and by passes (`Goes`), and
what it does from the second it does from the first.
-/

open Fuelled

namespace Ganoid.Vsprintf

/-! ### Directives -/

/-- A character between `%` and the width. -/
inductive Flag
  | left
  | plus
  | space
  | special
  | zeropad
deriving DecidableEq

namespace Flag

/-- The character of a flag. -/
def char : Flag → U8
  | left => 0x2D
  | plus => 0x2B
  | space => 0x20
  | special => 0x23
  | zeropad => 0x30

/-- The bit of a flag. -/
def bit : Flag → U32
  | left => leftFlag
  | plus => plusFlag
  | space => spaceFlag
  | special => specialFlag
  | zeropad => zeropadFlag

end Flag

/-- The character of a decimal digit. -/
def digitByte (d : ℕ) : U8 := BitVec.ofNat 8 (48 + d)

/-- The width of a conversion: none, digits, or an argument. -/
inductive Width
  | absent
  | digits (first : Fin 9) (rest : List (Fin 10))
  | star (val : U32)

namespace Width

/-- The digits of a width, the first of which is not 0. -/
def digitList (first : Fin 9) (rest : List (Fin 10)) : List ℕ :=
  (first.val + 1) :: rest.map Fin.val

def spell : Width → List U8
  | absent => []
  | digits first rest => (digitList first rest).map digitByte
  | star _ => [0x2A]

def args : Width → List Arg
  | star val => [.int val]
  | _ => []

/-- The value of a width, and `fieldwidth` where there is none. -/
def value (fieldwidth : U32) : Width → U32
  | absent => fieldwidth
  | digits first rest => BitVec.ofNat 32 (Positional.value 10 (digitList first rest))
  | star val => val

end Width

/-- What stands between `%` and the specifier of a conversion. -/
structure Directive where
  flags : List Flag
  width : Width
  precision : Option (List (Fin 10))
  long : Bool

namespace Directive

def spellPrecision (d : Directive) : List U8 :=
  match d.precision with
  | none => []
  | some ds => 0x2E :: (ds.map Fin.val).map digitByte

/-- The length modifier and the specifier. -/
def spellSpec (d : Directive) (x : U8) : List U8 :=
  (if d.long then [0x6C] else []) ++ [x]

/-- What follows the width. -/
def spellTail (d : Directive) (x : U8) : List U8 := d.spellPrecision ++ d.spellSpec x

/-- A conversion with the specifier `x`. -/
def spell (d : Directive) (x : U8) : List U8 :=
  0x25 :: (d.flags.map Flag.char ++ (d.width.spell ++ d.spellTail x))

/-- Whether there is the flag `-`. -/
def hasLeft (d : Directive) : Bool := Flag.left ∈ d.flags

/-- The width that is written with, where `left` says whether the flag `-` was there before, and
`fieldwidth` stands for a width that is not given. -/
def fieldwidth (d : Directive) (left : Bool) (fieldwidth : U32) : U32 :=
  if left || d.hasLeft then -d.width.value fieldwidth else d.width.value fieldwidth

end Directive

/-! ### Characters -/

/-- The characters of the specifiers that `get_conv_specifier` knows. -/
def acceptedChars : List U8 := [0x64, 0x69, 0x6F, 0x75, 0x78, 0x58, 0x70, 0x63, 0x73]

/-- The characters that can follow the width. -/
def followChars : List U8 := 0x2E :: 0x6C :: acceptedChars

theorem deref_spellSpec_mem (d : Directive) {x : U8} (hx : x ∈ acceptedChars) (rest : List U8) :
    deref (d.spellSpec x ++ rest) ∈ 0x6C :: acceptedChars := by
  rw [Directive.spellSpec]
  cases d.long with
  | true => exact List.mem_cons_self
  | false => exact List.mem_cons_of_mem _ hx

theorem deref_spellTail_mem (d : Directive) {x : U8} (hx : x ∈ acceptedChars) (rest : List U8) :
    deref (d.spellTail x ++ rest) ∈ followChars := by
  rw [Directive.spellTail, Directive.spellPrecision]
  cases d.precision with
  | some ds => exact List.mem_cons_self
  | none => exact List.mem_cons_of_mem _ (deref_spellSpec_mem d hx rest)

/-- What follows the width is not taken for a part of it, nor for a flag. -/
theorem of_mem_followChars {c : U8} (h : c ∈ followChars) :
    isdigit c = false ∧ c ≠ 0x2A ∧ c ≠ 0 ∧ ∀ f : Flag, c ≠ f.char := by
  have hall : followChars.all (fun c ↦ !isdigit c && c != 0x2A && c != 0 && c != 0x2D &&
      c != 0x2B && c != 0x20 && c != 0x23 && c != 0x30) = true := rfl
  have hc := List.all_eq_true.1 hall c h
  simp only [Bool.and_eq_true, Bool.not_eq_true', bne_iff_ne] at hc
  obtain ⟨⟨⟨⟨⟨⟨⟨hdigit, hstar⟩, hnul⟩, hleft⟩, hplus⟩, hspace⟩, hspecial⟩, hzeropad⟩ := hc
  refine ⟨hdigit, hstar, hnul, fun f ↦ ?_⟩
  cases f with
  | left => exact hleft
  | plus => exact hplus
  | space => exact hspace
  | special => exact hspecial
  | zeropad => exact hzeropad

/-- What follows the precision is not taken for a part of it. -/
theorem of_mem_acceptedChars {c : U8} (h : c ∈ 0x6C :: acceptedChars) :
    isdigit c = false ∧ c ≠ 0x2E := by
  refine ⟨(of_mem_followChars (List.mem_cons_of_mem _ h)).1, fun heq ↦ ?_⟩
  rw [heq] at h
  exact absurd h (by decide)

theorem toNat_digitByte {d : ℕ} (hd : d < 10) : (digitByte d).toNat = 48 + d := by
  rw [digitByte, BitVec.toNat_ofNat]
  omega

theorem isdigit_digitByte {d : ℕ} (hd : d < 10) : isdigit (digitByte d) = true := by
  rw [isdigit_iff, toNat_digitByte hd]
  omega

theorem digitVal_digitByte {d : ℕ} (hd : d < 10) : digitVal (digitByte d) = d := by
  rw [digitVal_of_isdigit (isdigit_digitByte hd), toNat_digitByte hd]
  omega

/-! ### The parts of a directive -/

/-- The flags after those of a conversion. -/
def setFlags (flags : U32) (fs : List Flag) : U32 :=
  fs.foldl (fun flags f ↦ flags ||| f.bit) flags

theorem getflags_append (flags : U32) (fs : List Flag) {s : List U8}
    (hs : ∀ f : Flag, deref s ≠ f.char) :
    getflags flags (fs.map Flag.char ++ s) = (setFlags flags fs, s) := by
  induction fs generalizing flags with
  | nil =>
    cases s with
    | nil => rfl
    | cons c s =>
      have hne : ∀ f : Flag, c ≠ f.char := hs
      exact (if_neg (hne .left)).trans ((if_neg (hne .plus)).trans ((if_neg (hne .space)).trans
        ((if_neg (hne .special)).trans (if_neg (hne .zeropad)))))
  | cons f fs ih =>
    have hstep : getflags flags (f.char :: (fs.map Flag.char ++ s)) =
        getflags (flags ||| f.bit) (fs.map Flag.char ++ s) := by
      cases f <;> rfl
    rw [List.map_cons, List.cons_append, hstep, ih]
    rfl

/-- Whether the flag `-` is set. -/
def isLeft (flags : U32) : Bool := flags.getLsbD 4

theorem and_leftFlag_iff (flags : U32) : flags &&& leftFlag ≠ 0 ↔ isLeft flags = true := by
  have hbit : leftFlag = BitVec.twoPow 32 4 := by decide
  rw [hbit, ← Bool.not_eq_false, not_iff_not]
  exact PackedBits.and_mask_eq_zero_iff (by decide)

theorem isLeft_setFlags (flags : U32) (fs : List Flag) :
    isLeft (setFlags flags fs) = (isLeft flags || decide (Flag.left ∈ fs)) := by
  induction fs generalizing flags with
  | nil => simp [setFlags]
  | cons f fs ih =>
    have hbit : isLeft (flags ||| f.bit) = (isLeft flags || decide (Flag.left = f)) := by
      rw [isLeft, BitVec.getLsbD_or]
      cases f <;> rfl
    rw [setFlags, List.foldl_cons, ← setFlags, ih, hbit, Bool.or_assoc]
    simp

theorem valueSum_eq {fmt : List U8} {i : ℕ} (hi : i ≤ fmt.length)
    (hdigits : ∀ c ∈ fmt.take i, isdigit c = true) (t val : U32) :
    valueSum fmt i t val = val + t * BitVec.ofNat 32 (digitsValue 10 (fmt.take i)) := by
  induction i generalizing t val with
  | zero => simp [valueSum, digitsValue]
  | succ i ih =>
    rw [weigh_take_succ hi (hdigits _ (getD_mem_take hi)), valueSum]
    exact ih (Nat.le_of_lt hi)
      (fun c hc ↦ hdigits c (List.take_subset_take_left fmt (Nat.le_succ i) hc)) _ _

/-- **`get_value`** of a row of digits. -/
theorem getValue_append {ds s : List U8} (hds : ∀ c ∈ ds, isdigit c = true)
    (hs : isdigit (deref s) = false) :
    getValue (ds ++ s) = (BitVec.ofNat 32 (digitsValue 10 ds), s) := by
  have htake : (ds ++ s).take ds.length = ds := by simp
  have hsum := @valueSum_eq (ds ++ s) ds.length (by simp) (by rwa [htake]) 1 0
  rw [getValue, digitRun_append hds hs, hsum, htake, List.drop_left]
  simp

/-- A row of digits that spells a number. -/
theorem getValue_digits (ds : List ℕ) (hds : ∀ d ∈ ds, d < 10) {s : List U8}
    (hs : isdigit (deref s) = false) :
    getValue (ds.map digitByte ++ s) = (BitVec.ofNat 32 (Positional.value 10 ds), s) := by
  have hmap : (ds.map digitByte).map digitVal = ds := by
    rw [List.map_map]
    exact (List.map_congr_left fun d hd ↦ digitVal_digitByte (hds d hd)).trans ds.map_id
  have hdigits : ∀ c ∈ ds.map digitByte, isdigit c = true := fun c hc ↦ by
    obtain ⟨d, hd, rfl⟩ := List.mem_map.1 hc
    exact isdigit_digitByte (hds d hd)
  rw [getValue_append hdigits hs, digitsValue, hmap]
  rfl

theorem lt_of_mem_digitList {first : Fin 9} {rest : List (Fin 10)} {d : ℕ}
    (hd : d ∈ Width.digitList first rest) : d < 10 := by
  rcases List.mem_cons.1 hd with rfl | hd
  · have hlt := first.isLt
    omega
  · obtain ⟨e, -, rfl⟩ := List.mem_map.1 hd
    exact e.isLt

/-- The precision is read. -/
theorem getPrecision_spell (d : Directive) {x : U8} (hx : x ∈ acceptedChars) (precision : U32)
    (fmt : List U8) :
    (getPrecision precision (d.spellTail x ++ fmt)).2 = d.spellSpec x ++ fmt := by
  obtain ⟨hdigit, hdot⟩ := of_mem_acceptedChars (deref_spellSpec_mem d hx fmt)
  rw [getPrecision, Directive.spellTail, Directive.spellPrecision, List.append_assoc]
  cases d.precision with
  | none => exact congrArg Prod.snd (if_neg hdot)
  | some ds =>
    have hlt : ∀ d ∈ ds.map Fin.val, d < 10 := fun d hd ↦ by
      obtain ⟨e, -, rfl⟩ := List.mem_map.1 hd
      exact e.isLt
    exact congrArg Prod.snd ((if_pos rfl).trans (getValue_digits _ hlt hdigit))

/-- The length modifier is read. -/
theorem getLengthmodifier_spell (d : Directive) {x : U8} (hx : x ∈ acceptedChars)
    (fmt : List U8) : (getLengthmodifier (d.spellSpec x ++ fmt)).2 = x :: fmt := by
  have hne : x ≠ 0x6C := fun heq ↦ by
    rw [heq] at hx
    exact absurd hx (by decide)
  rw [getLengthmodifier, Directive.spellSpec]
  cases d.long with
  | true => rfl
  | false => exact congrArg Prod.snd (if_neg hne)

/-- The width is read, and consumes its argument. -/
theorem getFieldwidth_spell (w : Width) (fieldwidth : U32) {s : List U8} (vl : List Arg)
    (hs : deref s ∈ followChars) :
    (getFieldwidth fieldwidth (w.spell ++ s) (w.args ++ vl)).Returns
      (w.value fieldwidth, s, vl) := by
  obtain ⟨hdigit, hstar, -, -⟩ := of_mem_followChars hs
  cases w with
  | absent =>
    rw [getFieldwidth, Width.spell, List.nil_append, hdigit, if_neg Bool.false_ne_true,
      if_neg hstar]
    exact returns_pure _
  | digits first rest =>
    have hlt : ∀ d ∈ Width.digitList first rest, d < 10 := fun d hd ↦ lt_of_mem_digitList hd
    have hhead : isdigit (deref ((Width.digitList first rest).map digitByte ++ s)) = true :=
      isdigit_digitByte (hlt _ List.mem_cons_self)
    rw [getFieldwidth, Width.spell, if_pos hhead, getValue_digits _ hlt hdigit]
    exact returns_pure _
  | star val => exact returns_pure _

/-- What follows the flags is not taken for one of them. -/
theorem deref_width_spell (w : Width) {s : List U8} (hs : deref s ∈ followChars) :
    deref (w.spell ++ s) ≠ 0 ∧ ∀ f : Flag, deref (w.spell ++ s) ≠ f.char := by
  obtain ⟨-, -, hnul, hflag⟩ := of_mem_followChars hs
  cases w with
  | absent => exact ⟨hnul, hflag⟩
  | digits first rest =>
    have hlt := first.isLt
    have hval : (digitByte (first.val + 1)).toNat = 48 + (first.val + 1) :=
      toNat_digitByte (by omega)
    have hne : ∀ c : U8, c.toNat ≤ 48 → digitByte (first.val + 1) ≠ c := fun c hc heq ↦ by
      rw [heq] at hval
      omega
    refine ⟨hne 0 (by decide), fun f ↦ hne f.char ?_⟩
    cases f <;> decide
  | star val =>
    refine ⟨show (0x2A : U8) ≠ 0 by decide, fun f ↦ show (0x2A : U8) ≠ f.char from ?_⟩
    cases f <;> decide

/-! ### Calls -/

/-- **A pass** leaves the loop, or it makes its call and goes round. -/
theorem pass_returns_iff {s : State} {r : State ⊕ Buf} : (pass s).Returns r ↔
    (∃ buf, (readCall s).Returns (.inr buf) ∧ .inr buf = r) ∨
      ∃ c, (readCall s).Returns (.inl c) ∧ ∃ w, c.realize.Returns w ∧ .inl (c.next w) = r := by
  rw [pass, returns_bind_iff]
  constructor
  · rintro ⟨c | buf, hcall, hret⟩
    · obtain ⟨w, hrealize, hret⟩ := returns_bind_iff.1 hret
      exact Or.inr ⟨c, hcall, w, hrealize, returns_pure_iff.1 hret⟩
    · exact Or.inl ⟨buf, hcall, returns_pure_iff.1 hret⟩
  · rintro (⟨buf, hcall, rfl⟩ | ⟨c, hcall, w, hrealize, rfl⟩)
    · exact ⟨.inr buf, hcall, returns_pure _⟩
    · exact ⟨.inl c, hcall, hrealize.bind (returns_pure _)⟩

/-- **A directive is read**, and what is behind its specifier is left. -/
theorem readCall_directive (s : State) (d : Directive) {x : U8} (hx : x ∈ acceptedChars)
    (fmt : List U8) (vl : List Arg) : ∃ precision lengthModifier,
    (readCall { s with fmt := d.spell x ++ fmt, vl := d.width.args ++ vl }).Returns
      (.inl ⟨s.buf, fmt, vl, setFlags s.flags d.flags, d.fieldwidth (isLeft s.flags) s.fieldwidth,
        precision, lengthModifier, getConvSpecifier [x]⟩) := by
  have htail := deref_spellTail_mem d hx fmt
  obtain ⟨hnul, hflag⟩ := deref_width_spell d.width htail
  have hflags := getflags_append s.flags d.flags hflag
  have hchar : ∀ f : Flag, f.char ≠ 0 := fun f ↦ by cases f <;> decide
  have hnul' : deref (d.flags.map Flag.char ++ (d.width.spell ++ (d.spellTail x ++ fmt))) ≠ 0 := by
    cases d.flags with
    | nil => exact hnul
    | cons f fs => exact hchar f
  have hwidth := getFieldwidth_spell d.width s.fieldwidth vl htail
  obtain ⟨precision, hprecision⟩ : ∃ precision,
      getPrecision s.precision (d.spellTail x ++ fmt) = (precision, d.spellSpec x ++ fmt) :=
    ⟨_, Prod.ext rfl (getPrecision_spell d hx s.precision fmt)⟩
  obtain ⟨lengthModifier, hlength⟩ : ∃ lengthModifier,
      getLengthmodifier (d.spellSpec x ++ fmt) = (lengthModifier, x :: fmt) :=
    ⟨_, Prod.ext rfl (getLengthmodifier_spell d hx fmt)⟩
  have hleft : (if setFlags s.flags d.flags &&& leftFlag ≠ 0 then -d.width.value s.fieldwidth
      else d.width.value s.fieldwidth) = d.fieldwidth (isLeft s.flags) s.fieldwidth := by
    rw [Directive.fieldwidth, Directive.hasLeft, ← isLeft_setFlags]
    exact if_congr (and_leftFlag_iff _) rfl rfl
  have hspell : d.spell x ++ fmt =
      0x25 :: (d.flags.map Flag.char ++ (d.width.spell ++ (d.spellTail x ++ fmt))) := by
    simp [Directive.spell]
  have hfound : ∀ rest : List U8, uptonext s.buf (0x25 :: rest) = (true, s.buf, 0x25 :: rest) :=
    fun rest ↦ rfl
  refine ⟨precision, lengthModifier, ?_⟩
  rw [hspell]
  simp only [readCall, hfound, List.tail_cons, Bool.not_true, Bool.false_eq_true, if_false, hnul',
    hflags]
  refine hwidth.bind ?_
  simp only [hleft, hprecision, hlength]
  exact returns_pure _

theorem pass_of_readCall {s c : State} {w : Buf × List Arg} (hcall : (readCall s).Returns (.inl c))
    (hrealize : c.realize.Returns w) : (pass s).Returns (.inl (c.next w)) :=
  pass_returns_iff.2 (Or.inr ⟨c, hcall, w, hrealize, rfl⟩)

/-- The loop from `s` calls `realize_string` with the variables `c`. -/
inductive Calls : State → State → Prop
  | here {s c : State} (h : (readCall s).Returns (.inl c)) : Calls s c
  | later {s s' c : State} (h : (pass s).Returns (.inl s')) (hc : Calls s' c) : Calls s c

/-- The calls of a loop that makes the call `c` and goes on from `s'`. -/
theorem calls_iff {s c s' c' : State} (hcall : (readCall s).Returns (.inl c))
    (hpass : (pass s).Returns (.inl s')) : Calls s c' ↔ c' = c ∨ Calls s' c' := by
  constructor
  · rintro (h | ⟨h, hc⟩)
    · exact Or.inl (Sum.inl.inj (h.unique hcall))
    · obtain rfl := Sum.inl.inj (h.unique hpass)
      exact Or.inr hc
  · rintro (rfl | hc)
    · exact .here hcall
    · exact .later hpass hc

/-- A loop that is left at once makes no call. -/
theorem not_calls_of_leave {s c : State} {buf : Buf} (h : (readCall s).Returns (.inr buf)) :
    ¬ Calls s c := by
  rintro (hcall | ⟨hpass, -⟩)
  · exact absurd (h.unique hcall) (by simp)
  · rcases pass_returns_iff.1 hpass with ⟨_, -, heq⟩ | ⟨_, hcall, -⟩
    · exact absurd heq (by simp)
    · exact absurd (h.unique hcall) (by simp)

/-! ### Literal characters -/

theorem uptonext_literal (buf : Buf) {c : U8} (hpercent : c ≠ 0x25) (hnul : c ≠ 0)
    (fmt : List U8) : uptonext buf (c :: fmt) = uptonext (buf.put c) fmt := by
  rw [uptonext, if_neg hnul, if_neg hpercent]

theorem readCall_literal (s : State) {c : U8} (hpercent : c ≠ 0x25) (hnul : c ≠ 0)
    (fmt : List U8) : readCall { s with fmt := c :: fmt } =
      readCall { s with buf := s.buf.put c, fmt := fmt } := by
  rw [readCall, readCall]
  dsimp only
  rw [uptonext_literal s.buf hpercent hnul]

/-- A literal character is copied. -/
theorem pass_literal (s : State) {c : U8} (hpercent : c ≠ 0x25) (hnul : c ≠ 0) (fmt : List U8) :
    pass { s with fmt := c :: fmt } = pass { s with buf := s.buf.put c, fmt := fmt } := by
  rw [pass, pass, readCall_literal s hpercent hnul]

theorem calls_literal_iff (s : State) {c : U8} (hpercent : c ≠ 0x25) (hnul : c ≠ 0)
    (fmt : List U8) {c' : State} : Calls { s with fmt := c :: fmt } c' ↔
      Calls { s with buf := s.buf.put c, fmt := fmt } c' := by
  constructor
  · rintro (h | ⟨h, hc⟩)
    · exact .here (readCall_literal s hpercent hnul fmt ▸ h)
    · exact .later (pass_literal s hpercent hnul fmt ▸ h) hc
  · rintro (h | ⟨h, hc⟩)
    · exact .here ((readCall_literal s hpercent hnul fmt).symm ▸ h)
    · exact .later ((pass_literal s hpercent hnul fmt).symm ▸ h) hc

/-! ### Going on -/

/-- The loop from `s` ends where the format is `fmt`. -/
inductive EndsAt : State → List U8 → Prop
  | here {s : State} {buf : Buf} {fmt : List U8} (h : uptonext s.buf s.fmt = (false, buf, fmt)) :
    EndsAt s fmt
  | later {s s' : State} {fmt : List U8} (h : (pass s).Returns (.inl s')) (hend : EndsAt s' fmt) :
    EndsAt s fmt

/-- The loop goes from one state to another by copying literal characters and by passes. -/
inductive Goes : State → State → Prop
  | refl (s : State) : Goes s s
  | literal {s s' : State} {c : U8} {fmt : List U8} (hpercent : c ≠ 0x25) (hnul : c ≠ 0)
    (h : Goes { s with buf := s.buf.put c, fmt := fmt } s') : Goes { s with fmt := c :: fmt } s'
  | pass {s t s' : State} (hpass : (pass s).Returns (.inl t)) (h : Goes t s') : Goes s s'

namespace Goes

variable {s s' : State}

/-- **The loop returns** from a state what it does from one it goes on to. -/
theorem returns_iff (h : Goes s s') {r : Buf} :
    (loop Vsprintf.pass s).Returns r ↔ (loop Vsprintf.pass s').Returns r := by
  induction h with
  | refl s => exact Iff.rfl
  | @literal s s' c fmt hpercent hnul h ih =>
    rw [← ih, returns_loop_iff, returns_loop_iff, pass_literal s hpercent hnul fmt]
  | @pass s t s' hpass h ih =>
    rw [← ih, returns_loop_iff]
    constructor
    · rintro (hleave | ⟨t', hagain, hret⟩)
      · exact absurd (hpass.unique hleave) (by simp)
      · rwa [Sum.inl.inj (hpass.unique hagain)]
    · exact fun hret ↦ Or.inr ⟨t, hpass, hret⟩

/-- It ends at the same place. -/
theorem endsAt (h : Goes s s') {fmt : List U8} (hend : EndsAt s' fmt) : EndsAt s fmt := by
  induction h with
  | refl s => exact hend
  | @literal s s' c fmt' hpercent hnul h ih =>
    rcases ih hend with huptonext | ⟨hpass, hrest⟩
    · exact .here ((uptonext_literal s.buf hpercent hnul fmt').trans huptonext)
    · exact .later ((pass_literal s hpercent hnul fmt').symm ▸ hpass) hrest
  | pass hpass h ih => exact .later hpass (ih hend)

end Goes

end Ganoid.Vsprintf
