import Ganoid.Library.Mealy
import Ganoid.Types
import Mathlib.Data.List.Forall2

/-!
# The scan code decoder

`keyboard_state_machine` of `arch/i386/kernel/kbd-handler.c`, which turns the bytes a keyboard sends
into reports. A key is named by one byte, and a code of scan code set 2 puts `E0` before the byte of
an extended key and `F0` before that of a key released.

The decoder remembers which key was pressed last only as a class: after a basic make it expects
basic codes (`basicBreakExpec`), after an extended make extended ones (`extBreakExpec`). Between two
codes it is in one of these states or in `init`, and `afterCode` says in which. Keystrokes that do
not overlap are decoded exactly (`reports_keystrokes`). Where they do, a code is reported as it is
or not at all, except for one kind: an extended code that arrives in `basicBreakExpec` is taken for
basic keys (`neverGuesses_iff`).
-/

namespace Ganoid

/-- The states of the decoder, `STATE_INIT` to `STATE_IGNORE`. -/
inductive KbdState
  | init
  | basicBreakExpec
  | basicBreakEs
  | extMakeEs
  | extBreakExpec
  | extBreakEs1
  | extBreakEs2
  | ignore
deriving DecidableEq

/-- What `keyboard_state_machine` writes through its pointers. -/
structure KeyReport where
  o : ℤ
  make : Bool
  repeatKey : Bool
  basicKey : Bool
deriving DecidableEq

/-- The values written first, which stand unless a key is reported. -/
def KeyReport.ignored : KeyReport := ⟨0, false, false, false⟩

/-- `keyboard_state_machine`, whose static variable `state` is passed in and out. -/
def keyboardStateMachine (state : KbdState) (i : U8) : KbdState × KeyReport :=
  match state with
  | .init =>
    if i = 0xF0#8 then (.ignore, .ignored)
    else if i = 0xE0#8 then (.extMakeEs, .ignored)
    else (.basicBreakExpec, ⟨i.toNat, true, false, true⟩)
  | .basicBreakExpec =>
    -- a repeat keeps the state, and `E0` is not told from one
    if i = 0xF0#8 then (.basicBreakEs, .ignored)
    else (.basicBreakExpec, ⟨i.toNat, true, true, true⟩)
  | .basicBreakEs =>
    if i = 0xE0#8 then (.ignore, .ignored)
    else if i = 0xF0#8 then (.ignore, .ignored)
    else (.init, ⟨i.toNat, false, false, true⟩)
  | .extMakeEs =>
    if i = 0xE0#8 then (.ignore, .ignored)
    else if i = 0xF0#8 then (.ignore, .ignored)
    else (.extBreakExpec, ⟨i.toNat, true, false, false⟩)
  | .extBreakExpec =>
    if i = 0xE0#8 then (.extBreakEs1, .ignored)
    else if i = 0xF0#8 then (.ignore, .ignored)
    else (.init, .ignored)
  | .extBreakEs1 =>
    if i = 0xF0#8 then (.extBreakEs2, .ignored)
    else if i = 0xE0#8 then (.ignore, .ignored)
    else (.extBreakExpec, ⟨i.toNat, true, false, false⟩)
  | .extBreakEs2 =>
    if i = 0xF0#8 then (.ignore, .ignored)
    else if i = 0xE0#8 then (.ignore, .ignored)
    else (.init, ⟨i.toNat, false, false, false⟩)
  | .ignore => (.init, .ignored)

/-- The reports on a stream of bytes, one for each byte. -/
abbrev decode (state : KbdState) (bytes : List U8) : List KeyReport :=
  Mealy.outputs keyboardStateMachine state bytes

/-- The state a stream of bytes leads to. -/
abbrev stateAfter (state : KbdState) (bytes : List U8) : KbdState :=
  Mealy.stateAfter keyboardStateMachine state bytes

/-- The reports of keys, those with a non-zero `*o`. -/
def reports (state : KbdState) (bytes : List U8) : List KeyReport :=
  (decode state bytes).filter fun r ↦ r.o ≠ 0

theorem reports_append (state : KbdState) (l l' : List U8) :
    reports state (l ++ l') = reports state l ++ reports (stateAfter state l) l' := by
  rw [reports, decode, Mealy.outputs_append, List.filter_append]
  rfl

/-! ### Codes -/

/-- A byte that names a key. -/
def KeyByte : Type := {b : U8 // b ≠ 0x00#8 ∧ b ≠ 0xE0#8 ∧ b ≠ 0xF0#8}

/-- A code of scan code set 2. -/
structure ScanCode where
  /-- Whether the key is an extended one. -/
  extended : Bool
  /-- Whether the key was released. -/
  isBreak : Bool
  key : KeyByte

namespace ScanCode

/-- The bytes of a code. -/
def bytes (c : ScanCode) : List U8 :=
  (if c.extended then [0xE0#8] else []) ++ (if c.isBreak then [0xF0#8] else []) ++ [c.key.1]

/-- For each byte of a code, the code that is complete with it. -/
def marks (c : ScanCode) : List (Option ScanCode) :=
  (if c.extended then [none] else []) ++ (if c.isBreak then [none] else []) ++ [some c]

/-- A report says of a code which byte, which class, and whether make or break. -/
structure Agrees (c : ScanCode) (r : KeyReport) : Prop where
  o : r.o = c.key.1.toNat
  make : r.make = !c.isBreak
  basicKey : r.basicKey = !c.extended

end ScanCode

/-- The stream of a sequence of codes. -/
def stream (codes : List ScanCode) : List U8 := codes.flatMap ScanCode.bytes

@[simp] theorem stream_nil : stream [] = [] := rfl

@[simp] theorem stream_cons (c : ScanCode) (codes : List ScanCode) :
    stream (c :: codes) = c.bytes ++ stream codes := rfl

/-- The byte of a key is reported as a key. -/
theorem KeyByte.toNat_ne_zero (k : KeyByte) : (k.1.toNat : ℤ) ≠ 0 := by
  intro h
  refine k.2.1 (BitVec.eq_of_toNat_eq ?_)
  show k.1.toNat = 0
  omega

/-! ### One code

The states between two codes are `init` and the states in which a key is held, and a code is read in
one of them. -/

/-- The state while a key of a class is held. -/
def heldState (extended : Bool) : KbdState :=
  if extended then .extBreakExpec else .basicBreakExpec

/-- The states between two codes. -/
def Boundary (s : KbdState) : Prop :=
  s = .init ∨ ∃ extended, s = heldState extended

/-- The state after a code that was read right. A basic make in `extBreakExpec` is dropped, and
nothing is known to be held. -/
def afterCode (s : KbdState) (c : ScanCode) : KbdState :=
  if c.isBreak then .init
  else if c.extended = false ∧ s = .extBreakExpec then .init
  else heldState c.extended

/-- The code is one that the state expects: a make of a new key, or a code of the class held. -/
def Expects (s : KbdState) (c : ScanCode) : Prop :=
  (s = .init ∧ c.isBreak = false) ∨ s = heldState c.extended

/-- The code is taken for basic keys. -/
def Misread (s : KbdState) (c : ScanCode) : Prop :=
  s = .basicBreakExpec ∧ c.extended = true

/-- An expected code is not misread. -/
theorem Expects.not_misread {s : KbdState} {c : ScanCode} (h : Expects s c) : ¬ Misread s c := by
  rintro ⟨rfl, hext⟩
  rcases h with ⟨hinit, -⟩ | hheld
  · exact absurd hinit (by decide)
  · rw [hext] at hheld
    exact absurd hheld (by decide)

theorem boundary_afterCode (s : KbdState) (c : ScanCode) : Boundary (afterCode s c) := by
  rw [afterCode]
  split
  · exact Or.inl rfl
  · split
    · exact Or.inl rfl
    · exact Or.inr ⟨_, rfl⟩

/-- How a code was read: its bytes before the last are ignored, its last one is ignored or reported
as the code, and is reported if the code was expected. -/
structure CodeRead (s : KbdState) (c : ScanCode) (r : KeyReport) : Prop where
  decode_eq : decode s c.bytes = (c.bytes.dropLast.map fun _ ↦ .ignored) ++ [r]
  ignored_or : r = .ignored ∨ c.Agrees r
  agrees : Expects s c → c.Agrees r
  after : stateAfter s c.bytes = afterCode s c

theorem CodeRead.of_ignored {s : KbdState} {c : ScanCode}
    (hdecode : decode s c.bytes = (c.bytes.dropLast.map fun _ ↦ .ignored) ++ [.ignored])
    (hafter : stateAfter s c.bytes = afterCode s c) (hun : ¬ Expects s c) :
    CodeRead s c .ignored where
  decode_eq := hdecode
  ignored_or := Or.inl rfl
  agrees h := absurd h hun
  after := hafter

theorem CodeRead.of_reported {s : KbdState} {c : ScanCode} (repeatKey : Bool)
    (hdecode : decode s c.bytes = (c.bytes.dropLast.map fun _ ↦ .ignored) ++
      [⟨c.key.1.toNat, !c.isBreak, repeatKey, !c.extended⟩])
    (hafter : stateAfter s c.bytes = afterCode s c) :
    CodeRead s c ⟨c.key.1.toNat, !c.isBreak, repeatKey, !c.extended⟩ where
  decode_eq := hdecode
  ignored_or := Or.inr ⟨rfl, rfl, rfl⟩
  agrees _ := ⟨rfl, rfl, rfl⟩
  after := hafter

/-- A code that arrives between two codes is read right unless it is an extended one that arrives
while a basic key is held. -/
theorem exists_codeRead {s : KbdState} (hs : Boundary s) {c : ScanCode} (h : ¬ Misread s c) :
    ∃ r, CodeRead s c r := by
  obtain ⟨extended, isBreak, k⟩ := c
  have he := k.2.2.1
  have hf := k.2.2.2
  rcases hs with rfl | ⟨held, rfl⟩
  · cases isBreak with
    | false =>
      refine ⟨_, .of_reported false ?_ ?_⟩ <;> cases extended <;>
        simp [ScanCode.bytes, keyboardStateMachine, he, hf, afterCode, heldState]
    | true =>
      refine ⟨_, .of_ignored ?_ ?_ ?_⟩ <;> cases extended <;>
        simp [ScanCode.bytes, keyboardStateMachine, afterCode, heldState, Expects]
  · cases held with
    | false =>
      have hbasic : extended = false := by
        cases extended
        · rfl
        · exact absurd ⟨rfl, rfl⟩ h
      subst hbasic
      refine ⟨_, .of_reported (!isBreak) ?_ ?_⟩ <;> cases isBreak <;>
        simp [ScanCode.bytes, keyboardStateMachine, he, hf, heldState, afterCode]
    | true =>
      cases extended with
      | false =>
        refine ⟨_, .of_ignored ?_ ?_ ?_⟩ <;> cases isBreak <;>
          simp [ScanCode.bytes, keyboardStateMachine, he, hf, afterCode, heldState, Expects]
      | true =>
        refine ⟨_, .of_reported false ?_ ?_⟩ <;> cases isBreak <;>
          simp [ScanCode.bytes, keyboardStateMachine, he, hf, heldState, afterCode]

/-! ### Keystrokes one after the other -/

/-- A key pressed, held for some repeats, and released. -/
structure Keystroke where
  extended : Bool
  key : KeyByte
  repeats : ℕ

/-- The code of the press, and of each repeat. -/
def Keystroke.make (k : Keystroke) : ScanCode := ⟨k.extended, false, k.key⟩

/-- The code of the release. -/
def Keystroke.break (k : Keystroke) : ScanCode := ⟨k.extended, true, k.key⟩

/-- The codes a keystroke sends. -/
def Keystroke.codes (k : Keystroke) : List ScanCode :=
  List.replicate (k.repeats + 1) k.make ++ [k.break]

theorem reports_of_codeRead {s : KbdState} {c : ScanCode} {r : KeyReport} (h : CodeRead s c r)
    (hagrees : c.Agrees r) : reports s c.bytes = [r] := by
  have hkey : r.o ≠ 0 := by
    rw [hagrees.o]
    exact c.key.toNat_ne_zero
  rw [reports, h.decode_eq, List.filter_append, List.filter_cons_of_pos (by simpa using hkey),
    List.filter_nil, List.filter_eq_nil_iff.2, List.nil_append]
  intro r' hr'
  obtain ⟨-, -, rfl⟩ := List.mem_map.1 hr'
  exact by decide

/-- Codes that are expected one after the other are reported one after the other. -/
theorem reports_of_expects {s : KbdState} (hs : Boundary s) {codes : List ScanCode}
    (h : Mealy.Each afterCode Expects s codes) :
    List.Forall₂ ScanCode.Agrees codes (reports s (stream codes)) ∧
      stateAfter s (stream codes) = codes.foldl afterCode s := by
  induction codes generalizing s with
  | nil => exact ⟨.nil, rfl⟩
  | cons c codes ih =>
    obtain ⟨hexp, hrest⟩ := h
    obtain ⟨r, hr⟩ := exists_codeRead hs hexp.not_misread
    obtain ⟨hforall, hafter⟩ := ih (boundary_afterCode s c) hrest
    rw [stream_cons, stateAfter, Mealy.stateAfter_append, ← stateAfter, ← stateAfter, reports_append,
      reports_of_codeRead hr (hr.agrees hexp), hr.after]
    exact ⟨.cons (hr.agrees hexp) hforall, hafter⟩

/-- While a key is held, its repeats and its break are expected, and the break releases it. -/
theorem Keystroke.expects_held (k : Keystroke) (n : ℕ) :
    Mealy.Each afterCode Expects (heldState k.extended) (List.replicate n k.make ++ [k.break]) ∧
      (List.replicate n k.make ++ [k.break]).foldl afterCode (heldState k.extended) = .init := by
  induction n with
  | zero => exact ⟨⟨Or.inr rfl, trivial⟩, rfl⟩
  | succ n ih =>
    have hheld : afterCode (heldState k.extended) k.make = heldState k.extended := by
      cases h : k.extended <;> simp [afterCode, heldState, Keystroke.make, h]
    rw [List.replicate_succ, List.cons_append, Mealy.each_cons_iff, List.foldl_cons, hheld]
    exact ⟨⟨Or.inr rfl, ih.1⟩, ih.2⟩

/-- Every code of a keystroke is expected, and the last one releases the key. -/
theorem Keystroke.expects (k : Keystroke) : Mealy.Each afterCode Expects .init k.codes ∧
    k.codes.foldl afterCode .init = .init := by
  have hheld : afterCode .init k.make = heldState k.extended := by
    cases h : k.extended <;> simp [afterCode, heldState, Keystroke.make, h]
  rw [Keystroke.codes, List.replicate_succ, List.cons_append, Mealy.each_cons_iff, List.foldl_cons,
    hheld]
  obtain ⟨hexp, hinit⟩ := k.expects_held k.repeats
  exact ⟨⟨Or.inl ⟨rfl, rfl⟩, hexp⟩, hinit⟩

/-- The codes of a sequence of keystrokes. -/
def typed (ks : List Keystroke) : List ScanCode := ks.flatMap Keystroke.codes

theorem typed_expects (ks : List Keystroke) : Mealy.Each afterCode Expects .init (typed ks) ∧
    (typed ks).foldl afterCode .init = .init := by
  induction ks with
  | nil => exact ⟨trivial, rfl⟩
  | cons k ks ih =>
    obtain ⟨hexp, hinit⟩ := k.expects
    rw [typed, List.flatMap_cons, Mealy.each_append_iff, List.foldl_append, hinit]
    exact ⟨⟨hexp, ih.1⟩, ih.2⟩

/-- **Keystrokes that do not overlap are decoded exactly**: their codes are reported one by one, and
the decoder is back in its initial state after each of them. -/
theorem reports_keystrokes (ks : List Keystroke) :
    List.Forall₂ ScanCode.Agrees (typed ks) (reports .init (stream (typed ks))) ∧
      ∀ done, done <+: ks → stateAfter .init (stream (typed done)) = .init := by
  have hinit : Boundary .init := Or.inl rfl
  refine ⟨(reports_of_expects hinit (typed_expects ks).1).1, fun done _ ↦ ?_⟩
  rw [(reports_of_expects hinit (typed_expects done).1).2]
  exact (typed_expects done).2

/-! ### Codes in any order -/

/-- A report at a byte of a stream is right if it reports nothing, or the byte is the last of a code
that the report agrees with. -/
def RightReport (r : KeyReport) (mark : Option ScanCode) : Prop :=
  r.o ≠ 0 → ∃ c, mark = some c ∧ c.Agrees r

/-- The decoder never guesses: every report on the stream of the codes is right. -/
def NeverGuesses (codes : List ScanCode) : Prop :=
  List.Forall₂ RightReport (decode .init (stream codes)) (codes.flatMap ScanCode.marks)

theorem rightReport_ignored (mark : Option ScanCode) : RightReport .ignored mark :=
  fun h ↦ absurd rfl h

/-- What holds of two pairs of lists of the same length holds of each pair. -/
theorem forall₂_append_iff {α β : Type} {R : α → β → Prop} {a a' : List α} {b b' : List β}
    (hlen : a.length = b.length) :
    List.Forall₂ R (a ++ a') (b ++ b') ↔ List.Forall₂ R a b ∧ List.Forall₂ R a' b' := by
  constructor
  · intro h
    have htake := List.forall₂_take_append _ _ _ h
    have hdrop := List.forall₂_drop_append _ _ _ h
    rw [← hlen, List.take_left] at htake
    rw [← hlen, List.drop_left] at hdrop
    exact ⟨htake, hdrop⟩
  · rintro ⟨h, h'⟩
    exact List.rel_append h h'

theorem length_decode_bytes (s : KbdState) (c : ScanCode) :
    (decode s c.bytes).length = c.marks.length := by
  cases h : c.extended <;> cases h' : c.isBreak <;> simp [ScanCode.bytes, ScanCode.marks, h, h']

/-- A code that was read right gives only right reports. -/
theorem CodeRead.rightReport {s : KbdState} {c : ScanCode} {r : KeyReport} (h : CodeRead s c r) :
    List.Forall₂ RightReport (decode s c.bytes) c.marks := by
  have hlast : RightReport r (some c) := by
    rcases h.ignored_or with rfl | hagrees
    · exact rightReport_ignored _
    · exact fun _ ↦ ⟨c, rfl, hagrees⟩
  rw [h.decode_eq]
  obtain ⟨extended, isBreak, k⟩ := c
  cases extended <;> cases isBreak <;>
    simp [ScanCode.bytes, ScanCode.marks, hlast, rightReport_ignored]

/-- A code that is misread is guessed at its first byte, `E0`. -/
theorem Misread.not_rightReport {s : KbdState} {c : ScanCode} (h : Misread s c) :
    ¬ List.Forall₂ RightReport (decode s c.bytes) c.marks := by
  obtain ⟨extended, isBreak, k⟩ := c
  obtain ⟨rfl, rfl⟩ := h
  intro hall
  -- the report of `E0` stands at a byte that completes no code
  have hfirst : RightReport ⟨0xE0, true, true, true⟩ none := by
    cases isBreak with
    | false => exact (List.forall₂_cons.1 hall).1
    | true => exact (List.forall₂_cons.1 hall).1
  obtain ⟨c, hc, -⟩ := hfirst (by decide)
  exact absurd hc (by simp)

theorem rightReports_iff {s : KbdState} (hs : Boundary s) (codes : List ScanCode) :
    List.Forall₂ RightReport (decode s (stream codes)) (codes.flatMap ScanCode.marks) ↔
      Mealy.Each afterCode (fun s c ↦ ¬ Misread s c) s codes := by
  induction codes generalizing s with
  | nil => simp
  | cons c codes ih =>
    rw [stream_cons, List.flatMap_cons, decode, Mealy.outputs_append,
      forall₂_append_iff (length_decode_bytes s c), Mealy.each_cons_iff]
    by_cases hmis : Misread s c
    · exact ⟨fun h ↦ absurd h.1 hmis.not_rightReport, fun h ↦ absurd hmis h.1⟩
    · obtain ⟨r, hr⟩ := exists_codeRead hs hmis
      have hafter : Mealy.stateAfter keyboardStateMachine s c.bytes = afterCode s c := hr.after
      rw [hafter, ← ih (boundary_afterCode s c)]
      exact ⟨fun h ↦ ⟨hmis, h.2⟩, fun h ↦ ⟨hr.rightReport, h.2⟩⟩

/-! ### Which codes are guessed -/

/-- The code is the make of a key of the class. -/
def ScanCode.IsMake (c : ScanCode) (extended : Bool) : Prop :=
  c.isBreak = false ∧ c.extended = extended

/-- Every extended code that follows a basic make directly follows one that itself directly follows
an extended make. -/
def Unambiguous (codes : List ScanCode) : Prop :=
  ∀ pre m c post, codes = pre ++ m :: c :: post → m.IsMake false → c.extended = true →
    ∃ pre' e, pre = pre' ++ [e] ∧ e.IsMake true

/-- An extended key is held after an extended make. -/
theorem foldl_eq_extBreakExpec_iff {codes : List ScanCode} :
    codes.foldl afterCode .init = .extBreakExpec ↔ ∃ pre e, codes = pre ++ [e] ∧ e.IsMake true := by
  rcases List.eq_nil_or_concat codes with rfl | ⟨pre, c, rfl⟩
  · simp
  · rw [List.concat_eq_append, List.foldl_append, List.foldl_cons, List.foldl_nil]
    constructor
    · intro h
      refine ⟨pre, c, rfl, ?_⟩
      obtain ⟨extended, isBreak, k⟩ := c
      by_cases hpre : pre.foldl afterCode .init = .extBreakExpec <;> cases isBreak <;>
        cases extended <;> simp_all [afterCode, heldState, ScanCode.IsMake]
    · rintro ⟨pre', e, heq, hbreak, hext⟩
      obtain ⟨rfl, hce⟩ := List.append_inj' heq rfl
      obtain rfl : c = e := List.head_eq_of_cons_eq hce
      simp [afterCode, heldState, hbreak, hext]

/-- A basic key is held after a basic make, unless the make was dropped because an extended key was
held. -/
theorem foldl_eq_basicBreakExpec_iff {codes : List ScanCode} :
    codes.foldl afterCode .init = .basicBreakExpec ↔ ∃ pre m, codes = pre ++ [m] ∧
      m.IsMake false ∧ ¬ ∃ pre' e, pre = pre' ++ [e] ∧ e.IsMake true := by
  rcases List.eq_nil_or_concat codes with rfl | ⟨pre, c, rfl⟩
  · simp
  · rw [List.concat_eq_append, List.foldl_append, List.foldl_cons, List.foldl_nil]
    constructor
    · intro h
      refine ⟨pre, c, rfl, ?_⟩
      rw [← foldl_eq_extBreakExpec_iff]
      obtain ⟨extended, isBreak, k⟩ := c
      cases isBreak <;> cases extended <;> simp_all [afterCode, heldState, ScanCode.IsMake]
    · rintro ⟨pre', m, heq, ⟨hbreak, hext⟩, hnot⟩
      obtain ⟨rfl, hcm⟩ := List.append_inj' heq rfl
      obtain rfl : c = m := List.head_eq_of_cons_eq hcm
      rw [← foldl_eq_extBreakExpec_iff] at hnot
      simp [afterCode, heldState, hbreak, hext, hnot]

/-- **The decoder never guesses** exactly on the streams in which no extended code directly follows
a basic make, except one that was itself dropped behind an extended make. -/
theorem neverGuesses_iff (codes : List ScanCode) : NeverGuesses codes ↔ Unambiguous codes := by
  rw [NeverGuesses, rightReports_iff (Or.inl rfl), Mealy.each_iff]
  constructor
  · intro h pre m c post heq hmake hext
    by_contra hnot
    refine h (pre ++ [m]) c post (by simp [heq]) ⟨?_, hext⟩
    exact foldl_eq_basicBreakExpec_iff.2 ⟨pre, m, rfl, hmake, hnot⟩
  · rintro h pre c post rfl ⟨hstate, hext⟩
    obtain ⟨pre', m, rfl, hmake, hnot⟩ := foldl_eq_basicBreakExpec_iff.1 hstate
    exact hnot (h pre' m c post (by simp) hmake hext)

/-- The key A is pressed, and the up arrow while A is held. -/
def rollover : List ScanCode :=
  [⟨false, false, ⟨0x1C, by decide⟩⟩, ⟨true, false, ⟨0x75, by decide⟩⟩]

/-- `E0` is reported as a repeat of a basic key with that scan code. -/
theorem not_neverGuesses_rollover : ¬ NeverGuesses rollover := by
  rw [NeverGuesses, rightReports_iff (Or.inl rfl)]
  exact fun h ↦ h.2.1 ⟨rfl, rfl⟩

end Ganoid
