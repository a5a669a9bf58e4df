import Ganoid.Libc.Strtoull

/-!
# The usual contract of `simple_strtoull`

The function stands in for `strtoull`, and so should read numerals the usual way. The numerals of
its own dialect are numerals in the usual sense, with the same values (`IsNumeral.toStandard`), and a
numeral in the usual sense has one value (`IsNumeral.unique`). So it meets the contract exactly where
the longest numeral in the usual sense is one of its own dialect and not a single 0 that it gives up,
or where there is none and it has nothing to go back over (`simpleStrtoull_readsNumeral_iff`).
-/

namespace Ganoid

namespace Dialect

variable {b : ℕ} {s p tail : List U8} {v : ℕ}

/-! ### Numerals in both senses -/

theorem digit_standard {c : U8} {d : ℕ} (h : ganoid.digit b c = some d) :
    standard.digit b c = some d := by
  simp only [ganoid, standard] at h ⊢
  grind

theorem IsDigits.toStandard {ds : List U8} (h : ganoid.IsDigits b ds) :
    standard.IsDigits b ds := fun c hc ↦ by
  obtain ⟨d, hd⟩ := Option.isSome_iff_exists.1 (h c hc)
  rw [digit_standard hd]
  rfl

theorem IsDigits.value_standard {ds : List U8} (h : ganoid.IsDigits b ds) :
    standard.value b ds = ganoid.value b ds := by
  rw [value, value]
  congr 1
  refine List.map_congr_left fun c hc ↦ ?_
  obtain ⟨d, hd⟩ := Option.isSome_iff_exists.1 (h c hc)
  rw [digit_standard hd, hd]

/-- The numerals of the code are numerals in the usual sense. -/
theorem IsNumeral.toStandard (h : ganoid.IsNumeral b p v) : standard.IsNumeral b p v := by
  rcases h.inv with ⟨hb, hne, hds, rfl⟩ | ⟨hb, ds, rfl, hne, hds, rfl⟩ | ⟨rfl, ds, rfl, hds, rfl⟩ |
    ⟨-, hD, -⟩
  · exact hds.value_standard ▸ .digits hb hne hds.toStandard
  · exact hds.value_standard ▸ .hex hb hne hds.toStandard
  · exact hds.value_standard ▸ .octal hds.toStandard
  · exact absurd hD (by decide)

/-- The letter of the prefix is no digit of these bases. -/
theorem IsDigits.not_mem_mark {ds : List U8} (h : standard.IsDigits b ds)
    (hb : b = 8 ∨ b = 10 ∨ b = 16) : (0x78 : U8) ∉ ds := fun hmem ↦ by
  have hx := h _ hmem
  rcases hb with rfl | rfl | rfl <;> exact absurd hx (by decide)

theorem mem_of_deref_eq {l : List U8} {c : U8} (h : deref l = c) (hc : c ≠ 0) : c ∈ l := by
  cases l with
  | nil => exact absurd h.symm hc
  | cons a l => exact (show a = c from h) ▸ List.mem_cons_self

/-- The value of a numeral in the usual sense. -/
def numeralValue (b : ℕ) (p : List U8) : ℕ :=
  if (b = 16 ∨ b = 0) ∧ deref p.tail = 0x78 then standard.value 16 p.tail.tail
  else if b ≠ 0 then standard.value b p
  else if deref p = 0x30 then standard.value 8 p.tail
  else standard.value 10 p

theorem IsNumeral.eq_numeralValue (h : standard.IsNumeral b p v) : v = numeralValue b p := by
  have hmark : ∀ l : List U8, deref l.tail = 0x78 → (0x78 : U8) ∈ l := fun l hl ↦
    List.mem_of_mem_tail (mem_of_deref_eq hl (by decide))
  rcases h.inv with ⟨hb, -, hds, rfl⟩ | ⟨hb, ds, rfl, -, -, rfl⟩ | ⟨rfl, ds, rfl, hds, rfl⟩ |
    ⟨rfl, -, -, hds, hhead, rfl⟩
  · rw [numeralValue, if_neg, if_pos hb]
    rintro ⟨hb', hx⟩
    obtain rfl := hb'.resolve_right hb
    exact hds.not_mem_mark (Or.inr (Or.inr rfl)) (hmark p hx)
  · exact (if_pos ⟨hb, rfl⟩).symm
  · have hhead : deref (0x30 :: ds) = 0x30 := rfl
    rw [numeralValue, if_neg, if_neg (not_not_intro rfl), if_pos hhead]
    · rfl
    · rintro ⟨-, hx⟩
      exact hds.not_mem_mark (Or.inl rfl) (mem_of_deref_eq hx (by decide))
  · rw [numeralValue, if_neg, if_neg (not_not_intro rfl), if_neg hhead]
    rintro ⟨-, hx⟩
    exact hds.not_mem_mark (Or.inr (Or.inl rfl)) (hmark p hx)

theorem IsNumeral.unique {v' : ℕ} (h : standard.IsNumeral b p v) (h' : standard.IsNumeral b p v') :
    v = v' := h.eq_numeralValue.trans h'.eq_numeralValue.symm

/-- There is one longest numeral. -/
theorem Longest.unique {p' tail' : List U8} {v' : ℕ} (h : standard.Longest b s p v tail)
    (h' : standard.Longest b s p' v' tail') : p = p' ∧ v = v' ∧ tail = tail' := by
  have hlen : p.length = p'.length := Nat.le_antisymm (h'.longest _ _ _ h.split h.numeral)
    (h.longest _ _ _ h'.split h'.numeral)
  obtain ⟨rfl, rfl⟩ := List.append_inj (h.split.symm.trans h'.split) hlen
  exact ⟨rfl, h.numeral.unique h'.numeral, rfl⟩

/-- A string that is a numeral as a whole. -/
theorem longest_whole {D : Dialect} (h : D.IsNumeral b s v) : D.Longest b s s v [] where
  split := (List.append_nil s).symm
  numeral := h
  longest p' v' tail' hsplit _ := by
    rw [hsplit, List.length_append]
    exact Nat.le_add_right _ _

/-- A longest numeral that is one of the code is the longest one of the code. -/
theorem Longest.ganoid (h : standard.Longest b s p v tail) (hnum : Dialect.ganoid.IsNumeral b p v) :
    Dialect.ganoid.Longest b s p v tail :=
  ⟨h.split, hnum, fun p' v' tail' hsplit hnum' ↦ h.longest p' v' tail' hsplit hnum'.toStandard⟩

/-- Without a numeral there is none of the code. -/
theorem not_longest_ganoid (hno : ∀ p v tail, ¬ standard.Longest b s p v tail) :
    ∀ p v tail, ¬ ganoid.Longest b s p v tail := fun p v tail h ↦ by
  obtain ⟨p', v', tail', h'⟩ := standard.exists_longest h.split h.numeral.toStandard
  exact hno p' v' tail' h'

theorem IsNumeral.ne_nil {D : Dialect} (h : D.IsNumeral b p v) : p ≠ [] := by
  rcases h.inv with ⟨-, hne, -⟩ | ⟨-, ds, rfl, -⟩ | ⟨-, ds, rfl, -⟩ | ⟨-, -, hne, -⟩
  · exact hne
  · exact List.cons_ne_nil _ _
  · exact List.cons_ne_nil _ _
  · exact hne

end Dialect

/-! ### Where the contract is met -/

theorem Leads.unique {s rest rest' : List U8} {neg neg' : Bool} (h : Leads s neg rest)
    (h' : Leads s neg' rest') : neg = neg' ∧ rest = rest' :=
  Prod.mk.inj ((takeSign_of_leads h).symm.trans (takeSign_of_leads h'))

/-- The strings that are read as the contract says. Behind blanks and sign there is a numeral, the
longest one is made of the digits and prefixes of the code, and it is not a single 0 that the code
gives up; or there is none, the base is neither 0 nor 16, and there are no blanks and no sign. -/
def ReadAsUsual (s : List U8) (b : ℕ) : Prop :=
  ∃ neg rest, Leads s neg rest ∧
    ((∃ p v tail, Dialect.standard.Longest b rest p v tail ∧ Dialect.ganoid.IsNumeral b p v ∧
        ¬ LoneZero b p tail) ∨
      (∀ p v tail, ¬ Dialect.standard.Longest b rest p v tail) ∧ b ≠ 0 ∧ b ≠ 16 ∧ rest = s)

/-- A second prefix cannot be part of a numeral. -/
theorem length_le_of_double {p tail t : List U8} {v : ℕ} (h : Dialect.standard.IsNumeral 0 p v)
    (hsplit : p ++ tail = 0x30 :: 0x78 :: 0x30 :: 0x78 :: t) : p.length ≤ 3 := by
  rcases h.inv with ⟨hb, -⟩ | ⟨-, ds, rfl, -, hds, -⟩ | ⟨-, ds, rfl, hds, -⟩ |
    ⟨-, -, hne, -, hhead, -⟩
  · exact absurd rfl hb
  · have hds' : ds ++ tail = 0x30 :: 0x78 :: t := (List.cons.inj (List.cons.inj hsplit).2).2
    match ds with
    | [] => exact Nat.le_succ 2
    | [_] => exact Nat.le_refl 3
    | _ :: x :: ds =>
      obtain rfl : x = 0x78 := (List.cons.inj (List.cons.inj hds').2).1
      exact absurd (by simp) (hds.not_mem_mark (Or.inr (Or.inr rfl)))
  · have hds' : ds ++ tail = 0x78 :: 0x30 :: 0x78 :: t := (List.cons.inj hsplit).2
    match ds with
    | [] => exact Nat.le_add_left 1 2
    | x :: ds =>
      obtain rfl : x = 0x78 := (List.cons.inj hds').1
      exact absurd List.mem_cons_self (hds.not_mem_mark (Or.inl rfl))
  · obtain ⟨c, p, rfl⟩ := List.exists_cons_of_ne_nil hne
    exact absurd (List.cons.inj hsplit).1 hhead

/-- Nothing that the code stores behind a single 0 is the end of the longest numeral. -/
theorem StoresEnd.not_loneZero {b : ℕ} {rest p p' tail tail' : List U8} {v : ℕ}
    (h : Dialect.standard.Longest b rest p v tail) (hsplit : rest = p' ++ tail')
    (hstore : StoresEnd b p' tail' (some tail)) : ¬ LoneZero b p' tail' := by
  intro hlone
  by_cases hdouble : DoublePrefix b p' tail'
  · obtain ⟨t, ht, hlt⟩ := hstore.double hdouble
    obtain rfl := Option.some.inj ht
    obtain ⟨rfl, rfl, hx, -⟩ := hdouble
    obtain ⟨c, t, rfl⟩ := List.exists_cons_of_ne_nil
      (show tail' ≠ [] from fun hnil ↦ absurd (hnil ▸ hx) (by decide))
    obtain rfl : c = 0x78 := hx
    have hshort := length_le_of_double h.numeral (h.split.symm.trans hsplit)
    have hlen := congrArg List.length (h.split.symm.trans hsplit)
    rw [List.length_append, List.length_append] at hlen
    change _ = 3 + _ at hlen
    omega
  · exact absurd (hstore.lone hlone hdouble) (Option.some_ne_none tail)

/-- A function that reads numerals of the code and meets the contract reads this string as usual. -/
theorem ReadsOwnNumeral.readAsUsual {s : List U8} {b : ℕ} {r : U64 × Option (List U8)}
    (hown : ReadsOwnNumeral s b r) (hread : ReadsNumeral .standard s b r) : ReadAsUsual s b := by
  obtain ⟨neg, rest, hleads, hown, hnoown⟩ := hown
  obtain ⟨neg', rest', hleads', hread, hnoread⟩ := hread
  obtain ⟨rfl, rfl⟩ := hleads.unique hleads'
  refine ⟨neg, rest, hleads, ?_⟩
  by_cases hstd : ∃ p v tail, Dialect.standard.Longest b rest p v tail
  · obtain ⟨p, v, tail, h⟩ := hstd
    obtain ⟨-, hend⟩ := hread p v tail h
    by_cases hex : ∃ p' v' tail', Dialect.ganoid.Longest b rest p' v' tail'
    · -- the code stores the end of its own longest numeral, so it is the same one
      obtain ⟨p', v', tail', h'⟩ := hex
      have hstore := hend ▸ (hown p' v' tail' h').2
      have hlone := hstore.not_loneZero h h'.split
      obtain rfl : tail = tail' := Option.some.inj (hstore.ends hlone)
      obtain rfl : p = p' := List.append_cancel_right (h.split.symm.trans h'.split)
      obtain rfl : v = v' := h.numeral.unique h'.numeral.toStandard
      exact Or.inl ⟨p, v, tail, h, h'.numeral, hlone⟩
    · -- without one of its own it stores nothing or where the numeral starts
      rw [hnoown fun p' v' tail' h' ↦ hex ⟨p', v', tail', h'⟩] at hend
      dsimp only at hend
      split at hend
      · exact absurd hend (Option.some_ne_none tail).symm
      · have hsplit := h.split
        rw [Option.some.inj hend] at hsplit
        exact absurd (List.self_eq_append_left.1 hsplit) h.numeral.ne_nil
  · have hno : ∀ p v tail, ¬ Dialect.standard.Longest b rest p v tail :=
      fun p v tail h ↦ hstd ⟨p, v, tail, h⟩
    have hend := (hnoread hno).2
    rw [hnoown (Dialect.not_longest_ganoid hno)] at hend
    dsimp only at hend
    split at hend
    · exact absurd hend (Option.some_ne_none s).symm
    · rename_i hb
      exact Or.inr ⟨hno, fun h ↦ hb (Or.inl h), fun h ↦ hb (Or.inr h), Option.some.inj hend⟩

/-- On a string that is read as usual such a function meets the contract. -/
theorem ReadsOwnNumeral.readsNumeral {s : List U8} {b : ℕ} {r : U64 × Option (List U8)}
    (hown : ReadsOwnNumeral s b r) (hread : ReadAsUsual s b) : ReadsNumeral .standard s b r := by
  obtain ⟨neg, rest, hleads, hown, hnoown⟩ := hown
  obtain ⟨neg', rest', hleads', hcase⟩ := hread
  obtain ⟨rfl, rfl⟩ := hleads.unique hleads'
  refine ⟨neg, rest, hleads, ?_⟩
  rcases hcase with ⟨p, v, tail, h, hnum, hlone⟩ | ⟨hno, hzero, hsixteen, rfl⟩
  · obtain ⟨hval, hstore⟩ := hown p v tail (h.ganoid hnum)
    have hdouble : ¬ DoublePrefix b p tail := fun hd ↦ hlone (Or.inr (Or.inr ⟨hd.1, hd.2.1⟩))
    refine ⟨fun p' v' tail' hstd ↦ ?_, fun hno ↦ absurd h (hno p v tail)⟩
    obtain ⟨rfl, rfl, rfl⟩ := h.unique hstd
    exact ⟨hval hdouble, hstore.ends hlone⟩
  · refine ⟨fun p v tail h ↦ absurd h (hno p v tail), fun _ ↦ ?_⟩
    have hnone := hnoown (Dialect.not_longest_ganoid hno)
    rw [if_neg (not_or.2 ⟨hzero, hsixteen⟩)] at hnone
    exact Prod.mk.inj hnone

/-- **`simple_strtoull` meets its contract** exactly on these strings. -/
theorem simpleStrtoull_readsNumeral_iff (s : List U8) (base : U32)
    (hbase : base = 0 ∨ 2 ≤ base.toNat ∧ base.toNat ≤ 36) :
    ReadsNumeral .standard s base.toNat (simpleStrtoull (some s) base) ↔
      ReadAsUsual s base.toNat := by
  have hown := simpleStrtoull_reads s base hbase
  exact ⟨hown.readAsUsual, hown.readsNumeral⟩

/-- The string ` -0x1F` in base 0, which is read as -31. -/
theorem simpleStrtoull_readsNumeral_iff_hex :
    simpleStrtoull (some [0x20, 0x2D, 0x30, 0x78, 0x31, 0x46]) 0 = (-31, some []) ∧
      ReadsNumeral .standard [0x20, 0x2D, 0x30, 0x78, 0x31, 0x46] 0
        (simpleStrtoull (some [0x20, 0x2D, 0x30, 0x78, 0x31, 0x46]) 0) := by
  have hdigits : Dialect.ganoid.IsDigits 16 [0x31, 0x46] := by
    rw [Dialect.IsDigits]
    decide
  have hnum : Dialect.ganoid.IsNumeral 0 (0x30 :: 0x78 :: [0x31, 0x46]) _ :=
    .hex (Or.inr rfl) (List.cons_ne_nil _ _) hdigits
  refine ⟨by decide, (simpleStrtoull_readsNumeral_iff _ 0 (Or.inl rfl)).2 ⟨true, _,
    .space (.minus _), Or.inl ⟨_, _, _, Dialect.longest_whole hnum.toStandard, hnum, ?_⟩⟩⟩
  rw [LoneZero]
  decide

/-- A capital is a digit of base 16, a small letter is not. -/
theorem not_readsNumeral_smallLetters : ¬ ReadsNumeral .standard [0x66, 0x66] 16
    (simpleStrtoull (some [0x66, 0x66]) 16) := by
  rintro ⟨neg, rest, hleads, hnumeral, -⟩
  obtain ⟨rfl, rfl⟩ := Prod.mk.inj (takeSign_of_leads hleads)
  have hdigits : Dialect.standard.IsDigits 16 [0x66, 0x66] := by
    rw [Dialect.IsDigits]
    decide
  have hlongest := Dialect.longest_whole
    (Dialect.IsNumeral.digits (b := 16) (by decide) (List.cons_ne_nil _ _) hdigits)
  exact absurd (hnumeral _ _ _ hlongest).1 (by decide)

end Ganoid
