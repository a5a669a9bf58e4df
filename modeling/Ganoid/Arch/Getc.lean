import Ganoid.Arch.Keyboard

/-!
# Characters from the keyboard

`getc` of `arch/i386/kernel/clib.c` calls `read_key` until that returns a key that prints, and returns
its character. It is at the end of a path that begins at the key: the code of a press goes through the
interrupt handler into the buffer, byte by byte, out of it into the decoder, and from there through
the key map. A task that calls `getc` over and over therefore gets what has been typed
(`getc_returns_typed`): of each keystroke that prints, its character once for the press and once for
each repeat, in order, however the calls fall among the arriving bytes.
-/

open Fuelled

namespace Ganoid

/-- The handler, the local `ch` of the call of `getc` in progress, and the characters that the calls
have returned. -/
structure Getc where
  kbd : Kbd
  ch : U32
  returned : List U8

/-- A byte arrives, or the loop of `getc` makes a pass, where the local `val` of `read_key` is not
initialized, and neither is `ch` of the next call of `getc`. -/
inductive GetcEvent
  | isr (b : U8)
  | pass (val ch : U32)

/-- The loop of `getc`, one pass at a time. Where it returns, the next call begins. -/
def GetcEvent.next (s : Getc) : GetcEvent → Fuelled Getc
  | .isr b => pure { s with kbd := kbdIsr s.kbd b }
  | .pass val ch => do
    let (r, kbd) ← readKey s.kbd s.ch val
    if r.r = 0 then
      if r.printable = true then pure ⟨kbd, ch, s.returned ++ [r.key.setWidth 8]⟩
      else pure { s with kbd := kbd, ch := r.key }
    else pure { s with kbd := kbd, ch := r.key }

/-- One event. -/
def GetcStep (s : Getc) (event : GetcEvent) (s' : Getc) : Prop := (event.next s).Returns s'

/-- The bytes delivered in a run. -/
def getcBytes (run : List (GetcEvent × Getc)) : List U8 :=
  run.flatMap fun
    | (.isr b, _) => [b]
    | (.pass _ _, _) => []

/-- The characters of keys: of those that print, the low byte. -/
def charsOf (keys : List (U32 × Bool)) : List U8 :=
  (keys.filter Prod.snd).map fun key ↦ key.1.setWidth 8

theorem charsOf_append (keys keys' : List (U32 × Bool)) :
    charsOf (keys ++ keys') = charsOf keys ++ charsOf keys' := by
  rw [charsOf, List.filter_append, List.map_append]
  rfl

/-! ### Calls among arriving bytes -/

/-- A pass of the loop returns the character of the key it reads, if that prints. -/
theorem pass_returns {s s' : Getc} {val ch : U32} {r : KeyRead} {kbd : Kbd}
    (hret : (readKey s.kbd s.ch val).Returns (r, kbd))
    (hstep : (GetcEvent.next s (.pass val ch)).Returns s') :
    s'.kbd = kbd ∧ s'.returned = s.returned ++ charsOf r.keys := by
  have hnext := hret.bind_iff.1 hstep
  dsimp only at hnext
  rw [KeyRead.keys]
  split at hnext
  · rename_i hr
    rw [if_pos hr]
    split at hnext
    · rename_i hprint
      obtain rfl := returns_pure_iff.1 hnext
      simp [charsOf, hprint]
    · rename_i hprint
      obtain rfl := returns_pure_iff.1 hnext
      simp [charsOf, hprint]
  · rename_i hr
    rw [if_neg hr]
    obtain rfl := returns_pure_iff.1 hnext
    simp [charsOf]

/-- Where `read_key` returns, the pass does. -/
theorem exists_pass {s : Getc} {val : U32} {r : KeyRead} {kbd : Kbd}
    (hret : (readKey s.kbd s.ch val).Returns (r, kbd)) (ch : U32) :
    ∃ s', GetcStep s (.pass val ch) s' := by
  by_cases hr : r.r = 0
  · by_cases hprint : r.printable = true
    · exact ⟨_, hret.bind (by simp only [if_pos hr, if_pos hprint]; exact returns_pure _)⟩
    · exact ⟨_, hret.bind (by simp only [if_pos hr, if_neg hprint]; exact returns_pure _)⟩
  · exact ⟨_, hret.bind (by simp only [if_neg hr]; exact returns_pure _)⟩

/-- The run lemma: what was in the buffer and what arrives is taken in order or still there, and the
characters returned are those of what was taken. -/
theorem getcRun_taken {s : Getc} {q : List U8} (h : Queued s.kbd q) {run : List (GetcEvent × Getc)}
    (hrun : Along GetcStep s run)
    (hroom : Along (fun _ _ s' ↦ s'.kbd.unread ≤ kbdBufferSize - 1) s run) :
    ∃ taken rest, q ++ getcBytes run = taken ++ rest ∧ Queued (finish s run).kbd rest ∧
      (finish s run).returned = s.returned ++ charsOf (keysOf s.kbd.state taken) := by
  induction run generalizing s q with
  | nil => exact ⟨[], q, by simp [getcBytes], h, (List.append_nil _).symm⟩
  | cons event run ih =>
    obtain ⟨event, s'⟩ := event
    obtain ⟨hstep, hrun⟩ := hrun
    obtain ⟨hle, hroom⟩ := hroom
    cases event with
    | isr b =>
      obtain rfl := returns_pure_iff.1 hstep
      obtain ⟨taken, rest, heq, hq, hchars⟩ := ih (h.kbdIsr hle) hrun hroom
      exact ⟨taken, rest, by rw [← heq, List.append_assoc]; rfl, hq, hchars⟩
    | pass val ch =>
      obtain ⟨taken₁, rest₁, ⟨r, kbd⟩, hret, hdone⟩ := readKey_returns h s.ch val
      obtain ⟨hkbd, hreturned⟩ := pass_returns hret hstep
      have hq₁ : Queued s'.kbd rest₁ := hkbd ▸ hdone.queued
      obtain ⟨taken, rest, heq, hq, hchars⟩ := ih hq₁ hrun hroom
      refine ⟨taken₁ ++ taken, rest, ?_, hq, ?_⟩
      · rw [hdone.eq_append, List.append_assoc, List.append_assoc, ← heq]
        rfl
      · have hstate : s'.kbd.state = stateAfter s.kbd.state taken₁ := hkbd ▸ hdone.state
        rw [finish_cons, hchars, hreturned, hstate, keysOf_append, charsOf_append, ← hdone.keys,
          List.append_assoc]

/-! ### What has been typed -/

/-- The character of a basic key that prints. -/
def basicChar (k : KeyByte) : Option U8 :=
  match keymapLookup basicKeymap k.1.toNat with
  | some v => if v &&& 0x100 = 0 then some (v.setWidth 8) else none
  | none => none

/-- The characters of a code. Releases and extended keys do not print. -/
def ScanCode.chars (c : ScanCode) : List U8 :=
  if c.isBreak || c.extended then [] else (basicChar c.key).toList

/-- The characters of a keystroke: one for the press and one for each repeat. -/
def Keystroke.chars (k : Keystroke) : List U8 :=
  match basicChar k.key with
  | some c => if k.extended then [] else List.replicate (k.repeats + 1) c
  | none => []

/-- No extended key prints. -/
theorem extendedKeymap_unprintable : ∀ e ∈ extendedKeymap, e.value &&& 0x200 ≠ 0 := by
  decide

theorem filterMap_keyOf_of_make {r : KeyReport} (hmake : r.make = true) :
    ([r].filter KeyReport.make).filterMap keyOf = (keyOf r).toList := by
  rw [List.filter_cons_of_pos hmake]
  cases hkey : keyOf r <;> simp [hkey]

/-- The characters of a report that agrees with a code. -/
theorem charsOf_agrees {c : ScanCode} {r : KeyReport} (h : c.Agrees r) :
    charsOf (([r].filter KeyReport.make).filterMap keyOf) = c.chars := by
  obtain ⟨extended, isBreak, k⟩ := c
  obtain ⟨o, make, basicKey⟩ := h
  dsimp only at o make basicKey
  cases isBreak with
  | true =>
    rw [List.filter_cons_of_neg (by simp [make])]
    rfl
  | false =>
    rw [filterMap_keyOf_of_make make]
    cases extended with
    | true =>
      have hkey : keyOf r = (keymapLookup extendedKeymap r.o).map fun v ↦ (v, v &&& 0x200 == 0) := by
        rw [keyOf, basicKey]
        rfl
      rw [hkey]
      cases hv : keymapLookup extendedKeymap r.o with
      | none => rfl
      | some v =>
        have hprint : v &&& 0x200 ≠ 0 := extendedKeymap_unprintable _
          ((keymapLookup_eq_some_iff sortedKeymap_extendedKeymap).1 hv)
        rw [Option.map_some, beq_eq_false_iff_ne.2 hprint]
        rfl
    | false =>
      have hkey : keyOf r = (keymapLookup basicKeymap r.o).map fun v ↦ (v, v &&& 0x100 == 0) := by
        rw [keyOf, basicKey]
        rfl
      show _ = (basicChar k).toList
      rw [hkey, basicChar, ← o]
      cases hv : keymapLookup basicKeymap r.o with
      | none => rfl
      | some v =>
        dsimp only
        by_cases hprint : v &&& 0x100 = 0
        · rw [if_pos hprint, Option.map_some, hprint]
          rfl
        · rw [if_neg hprint, Option.map_some, beq_eq_false_iff_ne.2 hprint]
          rfl

theorem charsOf_codeRead {s : KbdState} {c : ScanCode} {r : KeyReport} (h : CodeRead s c r)
    (hagrees : c.Agrees r) : charsOf (keysOf s c.bytes) = c.chars := by
  have hignored : ((c.bytes.dropLast.map fun _ ↦ KeyReport.ignored).filter KeyReport.make) = [] := by
    rw [List.filter_eq_nil_iff]
    intro r' hr'
    obtain ⟨-, -, rfl⟩ := List.mem_map.1 hr'
    exact Bool.false_ne_true
  rw [keysOf, h.decode_eq, List.filter_append, hignored, List.nil_append, charsOf_agrees hagrees]

/-- Codes that are expected one after the other print one after the other. -/
theorem charsOf_expects {s : KbdState} (hs : Boundary s) {codes : List ScanCode}
    (h : Mealy.Each afterCode Expects s codes) :
    charsOf (keysOf s (stream codes)) = codes.flatMap ScanCode.chars := by
  induction codes generalizing s with
  | nil => rfl
  | cons c codes ih =>
    obtain ⟨hexp, hrest⟩ := h
    obtain ⟨r, hr⟩ := exists_codeRead hs hexp.not_misread
    rw [stream_cons, keysOf_append, charsOf_append, charsOf_codeRead hr (hr.agrees hexp), hr.after,
      ih (boundary_afterCode s c) hrest]
    rfl

theorem Keystroke.flatMap_codes (k : Keystroke) : k.codes.flatMap ScanCode.chars = k.chars := by
  have hbreak : [k.break].flatMap ScanCode.chars = [] := rfl
  have hmake : k.make.chars = if k.extended then [] else (basicChar k.key).toList := rfl
  rw [Keystroke.codes, List.flatMap_append, hbreak, List.append_nil, List.flatMap_replicate, hmake,
    Keystroke.chars]
  cases basicChar k.key with
  | none => cases k.extended <;> exact List.flatten_replicate_nil
  | some c =>
    cases k.extended with
    | true => exact List.flatten_replicate_nil
    | false => exact List.flatten_replicate_singleton

theorem flatMap_typed (ks : List Keystroke) :
    (typed ks).flatMap ScanCode.chars = ks.flatMap Keystroke.chars := by
  rw [typed, List.flatMap_assoc]
  exact congrArg (ks.flatMap ·) (funext Keystroke.flatMap_codes)

/-- **What is typed is what `getc` returns.** Keystrokes that do not overlap arrive byte by byte,
among any calls of `read_key` that `getc` makes, and no more than `kbdBufferSize - 1` bytes are ever
unread. At any time the characters returned are the first of those typed, and once the buffer is
drained they are all of them: of each keystroke whose key prints, its character once for the press and
once for each repeat. No pass of the loop hangs. -/
theorem getc_returns_typed (ks : List Keystroke) (ch : U32) (run : List (GetcEvent × Getc))
    (hrun : Along GetcStep ⟨.start, ch, []⟩ run)
    (hroom : Along (fun _ _ s ↦ s.kbd.unread ≤ kbdBufferSize - 1) ⟨.start, ch, []⟩ run)
    (hbytes : getcBytes run <+: stream (typed ks)) :
    (finish ⟨.start, ch, []⟩ run).returned <+: ks.flatMap Keystroke.chars ∧
      ((finish ⟨.start, ch, []⟩ run).kbd.unread = 0 → getcBytes run = stream (typed ks) →
        (finish ⟨.start, ch, []⟩ run).returned = ks.flatMap Keystroke.chars) ∧
      ∀ val ch', ∃ s, GetcStep (finish ⟨.start, ch, []⟩ run) (.pass val ch') s := by
  obtain ⟨taken, rest, heq, hq, hchars⟩ :=
    @getcRun_taken ⟨.start, ch, []⟩ [] queued_start run hrun hroom
  have hall : charsOf (keysOf .init (stream (typed ks))) = ks.flatMap Keystroke.chars :=
    (charsOf_expects (Or.inl rfl) (typed_expects ks).1).trans (flatMap_typed ks)
  rw [List.nil_append] at heq
  refine ⟨?_, fun hdrained hdone ↦ ?_, fun val ch' ↦ ?_⟩
  · obtain ⟨later, hlater⟩ := hbytes
    rw [heq, List.append_assoc] at hlater
    rw [hchars, ← hall, ← hlater, keysOf_append, charsOf_append]
    exact List.prefix_append _ _
  · have hrest : rest = [] := List.length_eq_zero_iff.1 (hq.unread.symm.trans hdrained)
    rw [hrest, List.append_nil] at heq
    rw [hchars, ← hall, ← hdone, heq]
    rfl
  · obtain ⟨-, -, ⟨r, kbd⟩, hret, -⟩ := readKey_returns hq (finish ⟨.start, ch, []⟩ run).ch val
    exact exists_pass hret ch'

/-- The key A is pressed, repeated once and released, and the loop makes a pass after the first, the
third and the last byte. -/
theorem getc_returns_typed_repeat : ∃ run, Along GetcStep ⟨.start, 0, []⟩ run ∧
    getcBytes run = [0x1C, 0x1C, 0xF0, 0x1C] ∧ (finish ⟨.start, 0, []⟩ run).returned = [0x41, 0x41] := by
  have hrun : Along GetcStep ⟨.start, 0, []⟩ [(.isr 0x1C, _), (.pass 0 0, _), (.isr 0x1C, _),
      (.isr 0xF0, _), (.pass 0 0, _), (.isr 0x1C, _), (.pass 0 0, _)] :=
    ⟨returns_pure _, ⟨9, rfl⟩, returns_pure _, returns_pure _, ⟨9, rfl⟩, returns_pure _, ⟨9, rfl⟩,
      trivial⟩
  refine ⟨_, hrun, rfl, ?_⟩
  exact (getc_returns_typed [⟨false, ⟨0x1C, by decide⟩, 1⟩] 0 _ hrun
    ⟨by decide, by decide, by decide, by decide, by decide, by decide, by decide, trivial⟩
    (List.prefix_refl _)).2.1 rfl rfl

end Ganoid
