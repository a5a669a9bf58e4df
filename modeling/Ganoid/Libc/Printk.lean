import Ganoid.Arch.Console
import Ganoid.Libc.Length

/-!
# Printing to the console

`printk` writes the text of its format into an array on its stack, of `PRINTF_BUFFER_SIZE` bytes, and
prints the array on the console. Nothing in `vsprintf` bounds what it writes there, and nothing
behind the text and its NUL is written (`Untouched.vsprintf`), so its call leaves the stack behind
the array as it was exactly for the texts shorter than the array whose integers fit in the string of
`realize_string` (`printk_keepsStack_iff`). Where that is so the console shows what the formats say
(`printk_shows_terminal`).
-/

open Fuelled

namespace Ganoid

open Vsprintf

/-! ### What is not written -/

/-- Of the memory at the buffer, nothing has been written behind the place of the NUL. -/
def Untouched (mem : List U8) (buf : Buf) : Prop :=
  buf.after.tail = mem.drop (buf.before.length + 1)

namespace Untouched

variable {mem : List U8} {buf : Buf}

theorem start (mem : List U8) : Untouched mem ⟨[], mem⟩ := List.drop_one.symm

theorem put (h : Untouched mem buf) (c : U8) : Untouched mem (buf.put c) := by
  show buf.after.tail.tail = mem.drop ((buf.before ++ [c]).length + 1)
  rw [show buf.after.tail = _ from h, List.tail_drop, List.length_append]
  rfl

theorem terminate (h : Untouched mem buf) : Untouched mem buf.terminate := h

theorem copyString (h : Untouched mem buf) (s : List U8) :
    Untouched mem (Vsprintf.copyString buf s) := by
  induction s generalizing buf with
  | nil => exact h
  | cons c s ih =>
    rw [Vsprintf.copyString]
    split
    · exact h
    · exact ih (h.put c)

theorem uptonext (h : Untouched mem buf) (fmt : List U8) :
    Untouched mem (Vsprintf.uptonext buf fmt).2.1 := by
  induction fmt generalizing buf with
  | nil => exact h.terminate
  | cons c fmt ih =>
    rw [Vsprintf.uptonext]
    split
    · exact h.terminate
    · split
      · exact h
      · exact ih (h.put c)

theorem realizeString (h : Untouched mem buf) {flags fieldwidth precision lengthModifier
    convSpecifier : U32} {vl : List Arg} {w : Buf × List Arg}
    (hret : (Vsprintf.realizeString buf flags fieldwidth precision lengthModifier convSpecifier
      vl).Returns w) : Untouched mem w.1 := by
  obtain ⟨⟨buf', str, vl'⟩, hconv, hret⟩ := returns_bind_iff.1 hret
  obtain rfl := returns_pure_iff.1 hret
  refine Untouched.terminate (Untouched.copyString ?_ str)
  split_ifs at hconv
  · obtain ⟨⟨ch, vl''⟩, -, hconv⟩ := returns_bind_iff.1 hconv
    obtain ⟨rfl, -⟩ := Prod.mk.inj (returns_pure_iff.1 hconv)
    exact h.copyString ch
  · obtain ⟨⟨val, vl''⟩, -, hconv⟩ := returns_bind_iff.1 hconv
    obtain ⟨digits, -, hconv⟩ := returns_bind_iff.1 hconv
    split at hconv
    · obtain ⟨rfl, -⟩ := Prod.mk.inj (returns_pure_iff.1 hconv)
      exact h
    · exact absurd hconv not_returns_never
  · obtain ⟨⟨val, vl''⟩, -, hconv⟩ := returns_bind_iff.1 hconv
    obtain ⟨rfl, -⟩ := Prod.mk.inj (returns_pure_iff.1 hconv)
    exact h.put _
  · exact absurd hconv not_returns_never

/-- What a pass reads of a conversion writes nothing behind the text either. -/
theorem readCall {s : State} (h : Untouched mem s.buf) {r : State ⊕ Buf}
    (hret : (Vsprintf.readCall s).Returns r) : Untouched mem (r.elim State.buf id) := by
  have hnext := h.uptonext s.fmt
  rw [Vsprintf.readCall] at hret
  generalize Vsprintf.uptonext s.buf s.fmt = found at hret hnext
  obtain ⟨found, buf, fmt⟩ := found
  dsimp only at hret hnext
  split at hret
  · obtain rfl := returns_pure_iff.1 hret
    exact hnext
  · split at hret
    · obtain rfl := returns_pure_iff.1 hret
      exact hnext.terminate
    · obtain ⟨⟨fieldwidth, fmt', vl⟩, -, hret⟩ := returns_bind_iff.1 hret
      obtain rfl := returns_pure_iff.1 hret
      exact hnext

/-- Nor does a whole pass. -/
theorem pass {s : State} (h : Untouched mem s.buf) {r : State ⊕ Buf}
    (hret : (Vsprintf.pass s).Returns r) : Untouched mem (r.elim State.buf id) := by
  rcases pass_returns_iff.1 hret with ⟨buf, hcall, rfl⟩ | ⟨c, hcall, w, hrealize, rfl⟩
  · exact h.readCall hcall
  · exact (h.readCall hcall).realizeString hrealize

/-- **`vsprintf` writes nothing behind the text and its NUL**, whatever its format. -/
theorem vsprintf {fmt : List U8} {vl : List Arg} {n : U32}
    (hret : (Ganoid.vsprintf mem fmt vl).Returns (buf, n)) : Untouched mem buf := by
  obtain ⟨buf', hloop, hret⟩ := returns_bind_iff.1 hret
  obtain ⟨rfl, -⟩ := Prod.mk.inj (returns_pure_iff.1 hret)
  exact Returns.of_invariant (fun s ↦ Untouched mem s.buf) (Untouched mem)
    (fun _ _ h hb ↦ h.pass hb) (fun _ _ h hb ↦ h.pass hb) (start mem) hloop

end Untouched

/-! ### The array of `printk` -/

/-- A call leaves what lies behind its array on the stack as it was. -/
def KeepsStack (mem : List U8) (buf : Buf) : Prop :=
  (buf.before ++ buf.after).drop printfBufferSize = mem.drop printfBufferSize

/-- A text ends at its first NUL, whether that is its own or the one behind it. -/
theorem takeWhile_append_nul (t after : List U8) :
    (t ++ 0 :: after).takeWhile (· ≠ 0) = t.takeWhile (· ≠ 0) := by
  induction t with
  | nil => rfl
  | cons c t ih =>
    rw [List.cons_append, List.takeWhile_cons, List.takeWhile_cons, ih]

section

variable {items : List Item} (hfit : AllFit items) (percent : Bool) (vl : List Arg)
include hfit

/-- What the call of `vsprintf` leaves: the text of its format and the NUL, in front of what the
stack held behind them. -/
theorem vsprintf_returns (mem : List U8) :
    (vsprintf mem (spell items ++ ending percent) (args items ++ vl)).Returns
      (⟨text false items, 0 :: mem.drop ((text false items).length + 1)⟩, 0) := by
  obtain ⟨after, hret⟩ := vsprintf_ending hfit percent mem vl
  obtain rfl : after = mem.drop ((text false items).length + 1) := Untouched.vsprintf hret
  exact hret

/-- What a call of `printk` does with a text that fits in its array: it shows the text. -/
theorem printk_returns (hlen : (text false items).length < printfBufferSize) (v : Vga)
    (mem : List U8) : (printk v mem (spell items ++ ending percent) (args items ++ vl)).Returns
      (⟨text false items, 0 :: mem.drop ((text false items).length + 1)⟩,
        ((text false items).takeWhile (· ≠ 0)).foldl vgaPutc v, 0) := by
  refine (vsprintf_returns hfit percent vl mem).bind ?_
  dsimp only
  rw [if_pos hlen, vgaPuts_eq_foldl, takeWhile_append_nul]
  exact returns_pure _

end

/-- **The array is kept exactly by the texts shorter than it.** For every format of complete
conversions, the call of `vsprintf` in `printk` returns and leaves the stack behind its array as it
was, whatever that holds, exactly where the integers fit in the string of `realize_string` and the
text and its NUL fit in the array. -/
theorem printk_keepsStack_iff (items : List Item) (percent : Bool) (vl : List Arg) :
    (∀ mem, ∃ buf n, (vsprintf mem (spell items ++ ending percent) (args items ++ vl)).Returns
        (buf, n) ∧ KeepsStack mem buf) ↔
      AllFit items ∧ (text false items).length < printfBufferSize := by
  have hcons : ∀ mem : List U8, (text false items) ++ 0 :: mem =
      (text false items ++ [0]) ++ mem := fun mem ↦ (List.append_cons ..)
  constructor
  · intro h
    obtain ⟨_, _, hret, -⟩ := h []
    have hfit := allFit_of_vsprintf_returns hret
    refine ⟨hfit, ?_⟩
    by_contra hge
    -- a stack whose first byte behind the array differs from the byte of the text there
    have hlt : printfBufferSize < (text false items ++ [0]).length := by
      rw [List.length_append, List.length_singleton]
      omega
    obtain ⟨buf, n, hret, hkeeps⟩ :=
      h (List.replicate (printfBufferSize + 1) ((text false items ++ [0])[printfBufferSize] + 1))
    obtain ⟨rfl, -⟩ := Prod.mk.inj (hret.unique (vsprintf_returns hfit percent vl _))
    rw [KeepsStack, hcons, List.drop_append_of_le_length hlt.le, List.drop_eq_getElem_cons hlt,
      List.drop_replicate, List.drop_replicate, Nat.add_sub_cancel_left] at hkeeps
    have hbyte := (List.cons.inj hkeeps).1
    generalize (text false items ++ [0])[printfBufferSize] = b at hbyte
    bv_omega
  · rintro ⟨hfit, hlt⟩ mem
    refine ⟨_, _, vsprintf_returns hfit percent vl mem, ?_⟩
    have hlen : (text false items ++ [0]).length = (text false items).length + 1 := by simp
    rw [KeepsStack, hcons, List.drop_append, List.drop_of_length_le (by omega), List.nil_append,
      List.drop_drop, hlen, Nat.add_sub_cancel' (by omega)]

/-! ### The console -/

/-- A call of `printk`: what its stack holds, its format and its arguments, which may be more than
the format takes. -/
structure PrintkCall where
  mem : List U8
  items : List Item
  percent : Bool
  vl : List Arg

namespace PrintkCall

/-- The call on the console. -/
def run (v : Vga) (call : PrintkCall) : Fuelled Vga := do
  let (_, v, _) ← printk v call.mem (spell call.items ++ ending call.percent)
    (args call.items ++ call.vl)
  pure v

/-- What is printed fits in the arrays of the call. -/
def Fits (call : PrintkCall) : Prop :=
  AllFit call.items ∧ (text false call.items).length < printfBufferSize

/-- The characters that a call shows: its text, up to a NUL that `%c` may have put into it. -/
def chars (call : PrintkCall) : List U8 := (text false call.items).takeWhile (· ≠ 0)

theorem Fits.run_returns {call : PrintkCall} (h : call.Fits) (v : Vga) :
    (call.run v).Returns (call.chars.foldl vgaPutc v) :=
  (printk_returns h.1 call.percent call.vl h.2 v call.mem).bind (returns_pure _)

theorem foldlM_run_returns {calls : List PrintkCall} (h : ∀ call ∈ calls, call.Fits) (v : Vga) :
    (calls.foldlM run v).Returns ((calls.flatMap chars).foldl vgaPutc v) := by
  induction calls generalizing v with
  | nil => exact returns_pure v
  | cons call calls ih =>
    obtain ⟨hcall, hcalls⟩ := List.forall_mem_cons.1 h
    rw [List.foldlM_cons, List.flatMap_cons, List.foldl_append]
    exact (hcall.run_returns v).bind (ih hcalls _)

end PrintkCall

/-- **The console shows what the formats say.** After the screen is cleared, any calls of `printk`
whose texts and integers fit return, and leave the console showing the terminal on which their texts
were printed, from some row on. -/
theorem printk_shows_terminal (cells : ℕ → U16) (x y : U8) {calls : List PrintkCall}
    (hfit : ∀ call ∈ calls, call.Fits) :
    ∃ v k, (calls.foldlM PrintkCall.run (vgaClearscreen (.powerOn cells x y))).Returns v ∧
      Shows v ((calls.flatMap PrintkCall.chars).foldl Terminal.putc .blank) k := by
  obtain ⟨k, hk⟩ := (console_vgaClearscreen cells x y).foldl (calls.flatMap PrintkCall.chars)
  exact ⟨_, k, PrintkCall.foldlM_run_returns hfit _, hk.toShows⟩

/-- `printk` of `%5d` and a line feed. -/
def printSeven : PrintkCall := ⟨[], [wideSeven, .literal 0x0A (by decide) (by decide)], false, []⟩

/-- `printk` of `%s%`, with an argument too many. -/
def printOk : PrintkCall :=
  ⟨[0x11], [.conversion ⟨⟨[], .absent, none, false⟩, .str [0x4F, 0x4B]⟩], true, [.int 3]⟩

theorem printSeven_fits : printSeven.Fits :=
  ⟨allFit_conversion_iff.2 ⟨by decide, allFit_literal_iff.2 allFit_nil⟩, by decide⟩

theorem printOk_fits : printOk.Fits :=
  ⟨allFit_conversion_iff.2 ⟨by decide, allFit_nil⟩, by decide⟩

theorem printk_shows_terminal_two : ∃ v k,
    ([printSeven, printOk].foldlM PrintkCall.run
        (vgaClearscreen (.powerOn (fun _ ↦ 0) 0 0))).Returns v ∧
      Shows v ([0x30, 0x30, 0x30, 0x30, 0x37, 0x0A, 0x4F, 0x4B].foldl Terminal.putc .blank) k :=
  printk_shows_terminal _ 0 0
    (List.forall_mem_cons.2 ⟨printSeven_fits, List.forall_mem_singleton.2 printOk_fits⟩)

end Ganoid
