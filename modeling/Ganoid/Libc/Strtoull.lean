import Ganoid.Libc.Digits

/-!
# The contract of `simple_strtoull`

A string is read as blanks, a sign, and the longest numeral that follows (`Leads`, `Longest`). What
a numeral is depends on the characters that are digits and on what base 0 makes of a string without
a prefix. `standard` is the usual reading, with letters of either case as digits of the bases above
10 and base 10 where no prefix selects another. `simple_strtoull` reads a dialect of its own
(`ganoid`): letters are digits in base 16 only, and only capitals, and base 0 takes no numeral
without a prefix.

Against its own dialect it returns the value of every numeral and stores where it ends, up to two
slips. `hex_process` and `detect_base` return at once where a single 0 is the whole numeral, so
nothing is stored (`LoneZero`), and in base 0 the prefix is looked for twice, so a numeral `0x0`
that is followed by another `x` is taken for a second prefix (`DoublePrefix`). Where it meets the
usual reading is the subject of `Ganoid.Libc.Contract`.
-/

open Fuelled

namespace Ganoid

/-! ### Numerals -/

/-- What a reader of numerals takes for a digit of a base, and whether base 0 stands for base 10
where no prefix selects another. -/
structure Dialect where
  digit : ℕ → U8 → Option ℕ
  decimal : Bool

namespace Dialect

/-- A row of digits of a base. -/
def IsDigits (D : Dialect) (b : ℕ) (ds : List U8) : Prop :=
  ∀ c ∈ ds, (D.digit b c).isSome

/-- The value of a row of digits. -/
def value (D : Dialect) (b : ℕ) (ds : List U8) : ℕ :=
  Positional.value b (ds.map fun c ↦ (D.digit b c).getD 0)

/-- The numerals of a base, with their values. -/
inductive IsNumeral (D : Dialect) : ℕ → List U8 → ℕ → Prop
  | digits {b : ℕ} {ds : List U8} (hb : b ≠ 0) (hne : ds ≠ []) (hds : D.IsDigits b ds) :
      IsNumeral D b ds (D.value b ds)
  /-- A prefix `0x`, which is optional in base 16 and selects it in base 0. -/
  | hex {b : ℕ} {ds : List U8} (hb : b = 16 ∨ b = 0) (hne : ds ≠ []) (hds : D.IsDigits 16 ds) :
      IsNumeral D b (0x30 :: 0x78 :: ds) (D.value 16 ds)
  /-- A leading 0 selects base 8 in base 0. -/
  | octal {ds : List U8} (hds : D.IsDigits 8 ds) : IsNumeral D 0 (0x30 :: ds) (D.value 8 ds)
  | decimal {ds : List U8} (hD : D.decimal = true) (hne : ds ≠ []) (hds : D.IsDigits 10 ds)
      (hhead : deref ds ≠ 0x30) : IsNumeral D 0 ds (D.value 10 ds)

/-- The longest numeral that a string starts with. -/
structure Longest (D : Dialect) (b : ℕ) (s p : List U8) (v : ℕ) (tail : List U8) : Prop where
  split : s = p ++ tail
  numeral : D.IsNumeral b p v
  longest : ∀ p' v' tail', s = p' ++ tail' → D.IsNumeral b p' v' → p'.length ≤ p.length

/-- The usual reading. -/
def standard : Dialect where
  digit b c :=
    let v :=
      if 48 ≤ c.toNat ∧ c.toNat ≤ 57 then c.toNat - 48
      else if 65 ≤ c.toNat ∧ c.toNat ≤ 90 then c.toNat - 55
      else if 97 ≤ c.toNat ∧ c.toNat ≤ 122 then c.toNat - 87
      else b
    if v < b then some v else none
  decimal := true

/-- The reading of `simple_strtoull`. -/
def ganoid : Dialect where
  digit b c :=
    let v :=
      if 48 ≤ c.toNat ∧ c.toNat ≤ 57 then c.toNat - 48
      else if b = 16 ∧ 65 ≤ c.toNat ∧ c.toNat ≤ 70 then c.toNat - 55
      else b
    if v < b then some v else none
  decimal := false

end Dialect

/-! ### Blanks and sign -/

/-- A string is some blanks, a sign or none, and `rest`. -/
inductive Leads : List U8 → Bool → List U8 → Prop
  | space {s rest : List U8} {neg : Bool} (h : Leads s neg rest) : Leads (0x20 :: s) neg rest
  | plus (rest : List U8) : Leads (0x2B :: rest) false rest
  | minus (rest : List U8) : Leads (0x2D :: rest) true rest
  | bare {rest : List U8} (hspace : deref rest ≠ 0x20) (hplus : deref rest ≠ 0x2B)
      (hminus : deref rest ≠ 0x2D) : Leads rest false rest

theorem exists_leads (s : List U8) : ∃ neg rest, Leads s neg rest := by
  induction s with
  | nil => exact ⟨false, [], .bare (by decide) (by decide) (by decide)⟩
  | cons c s ih =>
    by_cases hspace : c = 0x20
    · obtain ⟨neg, rest, h⟩ := ih
      exact ⟨neg, rest, hspace ▸ .space h⟩
    · by_cases hplus : c = 0x2B
      · exact ⟨false, s, hplus ▸ .plus s⟩
      · by_cases hminus : c = 0x2D
        · exact ⟨true, s, hminus ▸ .minus s⟩
        · exact ⟨false, c :: s, .bare hspace hplus hminus⟩

theorem skipSpace_of_ne {s : List U8} (h : deref s ≠ 0x20) : skipSpace s = s := by
  cases s with
  | nil => rfl
  | cons c s =>
    have hspace : isspace c = false := decide_eq_false h
    rw [skipSpace, hspace, if_neg Bool.false_ne_true]

/-- The code skips what leads up to the numeral. -/
theorem takeSign_of_leads {s rest : List U8} {neg : Bool} (h : Leads s neg rest) :
    takeSign (skipSpace s) = (neg, rest) := by
  induction h with
  | space h ih => exact ih
  | plus rest => rfl
  | minus rest => rfl
  | bare hspace hplus hminus =>
    rw [skipSpace_of_ne hspace, takeSign, if_neg hplus, if_neg hminus]

/-! ### Contracts -/

/-- What is expected of an answer: the value of the longest numeral behind blanks and sign, and
where it ends. -/
def ReadsNumeral (D : Dialect) (s : List U8) (b : ℕ) (r : U64 × Option (List U8)) : Prop :=
  ∃ neg rest, Leads s neg rest ∧
    (∀ p v tail, D.Longest b rest p v tail → r.1 = signed neg v ∧ r.2 = some tail) ∧
    ((∀ p v tail, ¬ D.Longest b rest p v tail) → r.1 = 0 ∧ r.2 = some s)

/-- A single 0 behind which the function returns without storing where it ends. -/
def LoneZero (b : ℕ) (p tail : List U8) : Prop :=
  b = 16 ∧ p = [0x30] ∨ b = 0 ∧ p = [0x30] ∧ isdigit (deref tail) = false ∨
    b = 0 ∧ p = [0x30, 0x78, 0x30]

/-- A numeral that is taken for the start of a second prefix. -/
def DoublePrefix (b : ℕ) (p tail : List U8) : Prop :=
  b = 0 ∧ p = [0x30, 0x78, 0x30] ∧ deref tail = 0x78 ∧ isxdigit (deref tail.tail) = true

/-- What is stored for the longest numeral: where it ends, or nothing behind a single 0, or a place
further on behind a second prefix. -/
structure StoresEnd (b : ℕ) (p tail : List U8) (endptr : Option (List U8)) : Prop where
  ends : ¬ LoneZero b p tail → endptr = some tail
  lone : LoneZero b p tail → ¬ DoublePrefix b p tail → endptr = none
  double : DoublePrefix b p tail → ∃ t, endptr = some t ∧ t.length < tail.length

/-- What `simple_strtoull` does: it reads numerals of its dialect. Where there is none it stores
nothing in the bases 0 and 16, and the pointer behind blanks and sign in the others. -/
def ReadsOwnNumeral (s : List U8) (b : ℕ) (r : U64 × Option (List U8)) : Prop :=
  ∃ neg rest, Leads s neg rest ∧
    (∀ p v tail, Dialect.ganoid.Longest b rest p v tail →
      (¬ DoublePrefix b p tail → r.1 = signed neg v) ∧ StoresEnd b p tail r.2) ∧
    ((∀ p v tail, ¬ Dialect.ganoid.Longest b rest p v tail) →
      r = (0, if b = 0 ∨ b = 16 then none else some rest))

/-! ### The longest numeral -/

namespace Dialect

/-- A string that starts with a numeral starts with a longest one. -/
theorem exists_longest (D : Dialect) {b : ℕ} {s p tail : List U8} {v : ℕ} (hsplit : s = p ++ tail)
    (hnum : D.IsNumeral b p v) : ∃ p v tail, D.Longest b s p v tail := by
  induction hn : s.length - p.length using Nat.strongRecOn generalizing p v tail with
  | _ n ih =>
    by_cases hmore : ∃ p' v' tail', s = p' ++ tail' ∧ D.IsNumeral b p' v' ∧ p.length < p'.length
    · obtain ⟨p', v', tail', hsplit', hnum', hlt⟩ := hmore
      have hlen : p'.length ≤ s.length := by
        rw [hsplit', List.length_append]
        omega
      exact ih _ (by omega) hsplit' hnum' rfl
    · refine ⟨p, v, tail, hsplit, hnum,
        fun p' v' tail' hsplit' hnum' ↦ Nat.le_of_not_lt fun hlt ↦ ?_⟩
      exact hmore ⟨p', v', tail', hsplit', hnum', hlt⟩

variable {D : Dialect} {b : ℕ} {s p tail : List U8} {v : ℕ}

/-- The numerals, read off their first characters. -/
theorem IsNumeral.inv (h : D.IsNumeral b p v) :
    (b ≠ 0 ∧ p ≠ [] ∧ D.IsDigits b p ∧ v = D.value b p) ∨
      ((b = 16 ∨ b = 0) ∧ ∃ ds, p = 0x30 :: 0x78 :: ds ∧ ds ≠ [] ∧ D.IsDigits 16 ds ∧
        v = D.value 16 ds) ∨
      (b = 0 ∧ ∃ ds, p = 0x30 :: ds ∧ D.IsDigits 8 ds ∧ v = D.value 8 ds) ∨
      b = 0 ∧ D.decimal = true ∧ p ≠ [] ∧ D.IsDigits 10 p ∧ deref p ≠ 0x30 ∧ v = D.value 10 p := by
  cases h with
  | digits hb hne hds => exact Or.inl ⟨hb, hne, hds, rfl⟩
  | hex hb hne hds => exact Or.inr (Or.inl ⟨hb, _, rfl, hne, hds, rfl⟩)
  | octal hds => exact Or.inr (Or.inr (Or.inl ⟨rfl, _, rfl, hds, rfl⟩))
  | decimal hD hne hds hhead => exact Or.inr (Or.inr (Or.inr ⟨rfl, hD, hne, hds, hhead, rfl⟩))

/-- The longest numeral cannot be made longer by what follows. -/
theorem Longest.not_isNumeral (h : D.Longest b s p v tail) {q t : List U8} (hq : q ≠ [])
    (htail : tail = q ++ t) (v' : ℕ) : ¬ D.IsNumeral b (p ++ q) v' := fun hnum ↦ by
  have hle := h.longest (p ++ q) v' t (by rw [h.split, htail, List.append_assoc]) hnum
  rw [List.length_append] at hle
  exact hq (List.eq_nil_of_length_eq_zero (by omega))

end Dialect

/-! ### The digits of the code -/

/-- The digits of a base: decimal ones below it, and capitals in base 16. -/
theorem isCorrectDigit_iff_or {base : U32} (hle : base.toNat ≤ 36) {c : U8} :
    isCorrectDigit c base = true ↔
      isdigit c = true ∧ c.toNat - 48 < base.toNat ∨ base = 16 ∧ ishexchar c = true := by
  by_cases hbase : base = 16
  · subst hbase
    rw [isCorrectDigit_sixteen, isxdigit, Bool.or_eq_true]
    refine or_congr ⟨fun h ↦ ⟨h, ?_⟩, And.left⟩ (by simp)
    rw [isdigit_iff] at h
    show _ < 16
    omega
  · rw [isCorrectDigit_iff hbase hle]
    simp only [hbase, false_and, or_false]
    exact and_congr_right fun h ↦ by rw [digitVal_of_isdigit h]

theorem ganoid_digit {base : U32} (hle : base.toNat ≤ 36) (c : U8) :
    Dialect.ganoid.digit base.toNat c =
      if isCorrectDigit c base then some (digitVal c) else none := by
  have hsixteen : base.toNat = 16 ↔ base = 16 :=
    ⟨fun h ↦ BitVec.eq_of_toNat_eq h, fun h ↦ congrArg BitVec.toNat h⟩
  have hcorrect := @isCorrectDigit_iff_or base hle c
  simp only [Dialect.ganoid]
  by_cases hdigit : isdigit c = true
  · have hd := isdigit_iff.1 hdigit
    have hhex : ¬ ishexchar c = true := by
      rw [ishexchar_iff]
      omega
    have hiff : isCorrectDigit c base = true ↔ c.toNat - 48 < base.toNat := by
      rw [hcorrect, or_iff_left fun h ↦ hhex h.2, and_iff_right hdigit]
    rw [if_pos hd, digitVal_of_isdigit hdigit]
    simp only [hiff]
  · rw [if_neg (hdigit ∘ isdigit_iff.2)]
    by_cases hhex : base = 16 ∧ ishexchar c = true
    · have hh := ishexchar_iff.1 hhex.2
      have hlt : c.toNat - 55 < base.toNat := by
        rw [hsixteen.2 hhex.1]
        omega
      have hval : (if base.toNat = 16 ∧ 65 ≤ c.toNat ∧ c.toNat ≤ 70 then c.toNat - 55
          else base.toNat) = c.toNat - 55 := if_pos ⟨hsixteen.2 hhex.1, hh⟩
      rw [hval, if_pos hlt, if_pos (hcorrect.2 (Or.inr hhex)), digitVal, if_pos hhex.2]
    · have hnot : ¬ (base.toNat = 16 ∧ 65 ≤ c.toNat ∧ c.toNat ≤ 70) := by
        rw [hsixteen, ← ishexchar_iff]
        exact hhex
      have hbad : ¬ isCorrectDigit c base = true := by
        rw [hcorrect]
        exact fun h ↦ h.elim (fun h ↦ hdigit h.1) hhex
      have hval : (if base.toNat = 16 ∧ 65 ≤ c.toNat ∧ c.toNat ≤ 70 then c.toNat - 55
          else base.toNat) = base.toNat := if_neg hnot
      rw [hval, if_neg (Nat.lt_irrefl _), if_neg hbad]

theorem isDigits_ganoid_iff {base : U32} (hle : base.toNat ≤ 36) {ds : List U8} :
    Dialect.ganoid.IsDigits base.toNat ds ↔ ∀ c ∈ ds, isCorrectDigit c base = true := by
  refine forall₂_congr fun c _ ↦ ?_
  rw [ganoid_digit hle]
  split <;> simp [*]

theorem value_ganoid {base : U32} (hle : base.toNat ≤ 36) {ds : List U8}
    (hds : ∀ c ∈ ds, isCorrectDigit c base = true) :
    Dialect.ganoid.value base.toNat ds = digitsValue base ds := by
  rw [Dialect.value, digitsValue]
  congr 1
  refine List.map_congr_left fun c hc ↦ ?_
  rw [ganoid_digit hle, if_pos (hds c hc)]
  rfl

/-- The rows of digits among the numerals. -/
theorem isNumeral_row {base : U32} (hpos : base ≠ 0) (hle : base.toNat ≤ 36) {ds : List U8}
    (hne : ds ≠ []) (hds : ∀ c ∈ ds, isCorrectDigit c base = true) :
    Dialect.ganoid.IsNumeral base.toNat ds (digitsValue base ds) := by
  have hb : base.toNat ≠ 0 := fun h ↦ hpos (BitVec.eq_of_toNat_eq h)
  rw [← value_ganoid hle hds]
  exact .digits hb hne ((isDigits_ganoid_iff hle).2 hds)

/-- A row that could be made longer by one digit, but not by the next character, ends there. -/
theorem stop_of_longest {b : ℕ} {base : U32} (hle : base.toNat ≤ 36) {s p tail : List U8} {v : ℕ}
    (h : Dialect.ganoid.Longest b s p v tail)
    (hmore : ∀ c, isCorrectDigit c base = true → ∃ v', Dialect.ganoid.IsNumeral b (p ++ [c]) v') :
    isCorrectDigit (deref tail) base = false := by
  cases tail with
  | nil => exact isCorrectDigit_nul hle
  | cons c t =>
    refine Bool.eq_false_iff.2 fun hc ↦ ?_
    obtain ⟨v', hv'⟩ := hmore c hc
    exact h.not_isNumeral (List.cons_ne_nil c []) rfl v' hv'

/-- The numerals of the dialect. -/
theorem isNumeral_ganoid_cases {b : ℕ} {p : List U8} {v : ℕ} (h : Dialect.ganoid.IsNumeral b p v) :
    (b ≠ 0 ∧ p ≠ [] ∧ Dialect.ganoid.IsDigits b p ∧ v = Dialect.ganoid.value b p) ∨
      ((b = 16 ∨ b = 0) ∧ ∃ ds, p = 0x30 :: 0x78 :: ds ∧ ds ≠ [] ∧
        (∀ c ∈ ds, isxdigit c = true) ∧ v = digitsValue 16 ds) ∨
      b = 0 ∧ ∃ ds, p = 0x30 :: ds ∧ (∀ c ∈ ds, isCorrectDigit c 8 = true) ∧
        v = digitsValue 8 ds := by
  rcases h.inv with hrow | ⟨hb, ds, rfl, hne, hds, rfl⟩ | ⟨hb, ds, rfl, hds, rfl⟩ | ⟨-, hD, -⟩
  · exact Or.inl hrow
  · have hds' := (@isDigits_ganoid_iff 16 (by decide) ds).1 hds
    exact Or.inr (Or.inl ⟨hb, ds, rfl, hne, hds', @value_ganoid 16 (by decide) ds hds'⟩)
  · have hds' := (@isDigits_ganoid_iff 8 (by decide) ds).1 hds
    exact Or.inr (Or.inr ⟨hb, ds, rfl, hds', @value_ganoid 8 (by decide) ds hds'⟩)
  · exact absurd hD (by decide)

/-! ### The numbers the code reads -/

/-- In a base that has no prefixes, the longest numeral is the row of digits. -/
theorem strtoullBase_of_longest {base : U32} (hpos : base ≠ 0) (hne : base ≠ 16)
    (hle : base.toNat ≤ 36) {s p tail : List U8} {v : ℕ}
    (h : Dialect.ganoid.Longest base.toNat s p v tail) (neg : Bool) :
    strtoullBase neg base s = (signed neg v, some tail) := by
  have hzero : base.toNat ≠ 0 := fun heq ↦ hpos (BitVec.eq_of_toNat_eq heq)
  have hsixteen : base.toNat ≠ 16 := fun heq ↦ hne (BitVec.eq_of_toNat_eq heq)
  rcases isNumeral_ganoid_cases h.numeral with ⟨-, hnil, hds, rfl⟩ | ⟨hb, -⟩ | ⟨hb, -⟩
  · rw [isDigits_ganoid_iff hle] at hds
    have hstop := stop_of_longest hle h fun c hc ↦ ⟨_, isNumeral_row hpos hle (by simp)
      (List.forall_mem_append.2 ⟨hds, List.forall_mem_singleton.2 hc⟩)⟩
    rw [strtoullBase_of_ne hne, h.split, value_ganoid hle hds]
    exact strtoullNumber_append (by omega) hle neg hds hstop
  · exact absurd hb (by omega)
  · exact absurd hb hzero

/-- The first character of a row of digits is one. -/
theorem isxdigit_deref_append {ds tail : List U8} (hne : ds ≠ [])
    (hds : ∀ c ∈ ds, isxdigit c = true) : isxdigit (deref (ds ++ tail)) = true := by
  obtain ⟨c, cs, rfl⟩ := List.exists_cons_of_ne_nil hne
  exact hds c List.mem_cons_self

/-- A numeral with a prefix `0x`. -/
theorem isNumeral_marked {b : ℕ} (hb : b = 16 ∨ b = 0) {ds : List U8} (hne : ds ≠ [])
    (hds : ∀ c ∈ ds, isxdigit c = true) :
    Dialect.ganoid.IsNumeral b (0x30 :: 0x78 :: ds) (digitsValue 16 ds) := by
  rw [← @value_ganoid 16 (by decide) ds hds]
  exact .hex hb hne ((@isDigits_ganoid_iff 16 (by decide) ds).2 hds)

/-- A numeral with a prefix `0x` ends where its digits do. -/
theorem not_isxdigit_of_longest {b : ℕ} (hb : b = 16 ∨ b = 0) {s ds tail : List U8} {v : ℕ}
    (hds : ∀ c ∈ ds, isxdigit c = true)
    (h : Dialect.ganoid.Longest b s (0x30 :: 0x78 :: ds) v tail) : isxdigit (deref tail) = false :=
  @stop_of_longest b 16 (by decide) s _ tail _ h fun c hc ↦
    ⟨_, @isNumeral_marked b hb (ds ++ [c]) (by simp)
      (List.forall_mem_append.2 ⟨hds, List.forall_mem_singleton.2 hc⟩)⟩

/-- Behind a single 0 that is the longest numeral no prefix is completed. -/
theorem not_prefix_of_longest {b : ℕ} (hb : b = 16 ∨ b = 0) {s tail : List U8} {v : ℕ}
    (h : Dialect.ganoid.Longest b s [0x30] v tail) :
    ¬ (deref tail = 0x78 ∧ isxdigit (deref tail.tail) = true) := by
  rintro ⟨hx, hdigit⟩
  cases tail with
  | nil => exact absurd hx (by decide)
  | cons x t =>
    cases t with
    | nil => exact absurd hdigit (show ¬ isxdigit 0 = true by decide)
    | cons c t =>
      obtain rfl : x = 0x78 := hx
      refine h.not_isNumeral (q := [0x78, c]) (List.cons_ne_nil _ _) rfl _
        (isNumeral_marked hb (List.cons_ne_nil c []) (List.forall_mem_singleton.2 hdigit))

/-- In base 16 the code reads the longest numeral, and stores its end unless it is a single 0. -/
theorem strtoullBase_sixteen_of_longest {s p tail : List U8} {v : ℕ}
    (h : Dialect.ganoid.Longest 16 s p v tail) (neg : Bool) :
    strtoullBase neg 16 s = (signed neg v, if p = [0x30] then none else some tail) := by
  rcases isNumeral_ganoid_cases h.numeral with ⟨-, hnil, hds, hv⟩ | ⟨-, ds, rfl, hnil, hds, rfl⟩ |
    ⟨hb, -⟩
  · have hds' : ∀ c ∈ p, isxdigit c = true := (@isDigits_ganoid_iff 16 (by decide) p).1 hds
    have hv' : v = digitsValue 16 p := hv.trans (@value_ganoid 16 (by decide) p hds')
    have hstop : isxdigit (deref tail) = false :=
      @stop_of_longest 16 16 (by decide) s p tail v h fun c hc ↦
        ⟨_, @isNumeral_row 16 (by decide) (by decide) (p ++ [c]) (by simp)
          (List.forall_mem_append.2 ⟨hds', List.forall_mem_singleton.2 hc⟩)⟩
    rw [h.split]
    by_cases hlone : p = [0x30]
    · subst hlone
      rw [List.singleton_append,
        strtoullBase_sixteen_lone neg hstop (not_prefix_of_longest (Or.inl rfl) h), hv', if_pos rfl]
      exact congrArg (·, none) (signed_zero neg).symm
    · rw [strtoullBase_sixteen_append neg hnil hlone hds' hstop, hv', if_neg hlone]
  · rw [h.split, List.cons_append, List.cons_append,
      strtoullBase_sixteen_marked neg (isxdigit_deref_append hnil hds),
      @strtoullNumber_append 16 (by decide) (by decide) neg ds tail hds
        (not_isxdigit_of_longest (Or.inl rfl) hds h),
      if_neg fun heq ↦ List.cons_ne_nil _ _ (List.cons.inj heq).2]
  · exact absurd hb (by decide)

/-- In base 0 a 0 without a digit behind it, or a prefix without one, is given up. -/
theorem strtoullDetect_lone (neg : Bool) {tail : List U8} (hdigit : isdigit (deref tail) = false)
    (hmark : ¬ (deref tail = 0x78 ∧ isxdigit (deref tail.tail) = true)) :
    strtoullDetect neg (0x30 :: tail) = (0, none) := by
  have hbase : (detectBase (0x30 :: tail)).1 = -1 := by
    rw [detectBase, deref_cons, if_neg (by decide), if_pos rfl, List.tail_cons]
    by_cases hx : deref tail = 0x78
    · simp only [hx, if_true]
      exact if_neg fun h ↦ hmark ⟨hx, h⟩
    · simp only [hx, if_false, hdigit, Bool.false_eq_true]
  rw [strtoullDetect]
  exact if_pos hbase

/-- A 0 with a digit behind it selects base 8. -/
theorem strtoullDetect_octal (neg : Bool) {nptr : List U8} (h : isdigit (deref nptr) = true) :
    strtoullDetect neg (0x30 :: nptr) = strtoullNumber neg 8 nptr := by
  have hx : deref nptr ≠ 0x78 := fun heq ↦ by
    rw [heq] at h
    exact absurd h (by decide)
  have hbase : detectBase (0x30 :: nptr) = (8, nptr) := by
    rw [detectBase, deref_cons, if_neg (by decide), if_pos rfl, List.tail_cons, if_neg hx, if_pos h]
  rw [strtoullDetect, hbase]
  rfl

/-- A number ends in the string that it is read from. -/
theorem strtoullNumber_stores (neg : Bool) (base : U32) (nptr : List U8) :
    ∃ t, (strtoullNumber neg base nptr).2 = some t ∧ t.length ≤ nptr.length := by
  have hgobble : ∀ l : List U8, (gobbleZeros l).length ≤ l.length := fun l ↦ by
    induction l with
    | nil => exact Nat.le_refl _
    | cons c l ih =>
      rw [gobbleZeros]
      split
      · exact Nat.le_succ_of_le ih
      · exact Nat.le_refl _
  have hconvert : ∀ (l : List U8) (mul : U32) (num : U64),
      (convertDigits base l mul num).2.length ≤ l.length := fun l ↦ by
    induction l with
    | nil => exact fun _ _ ↦ Nat.le_refl _
    | cons c l ih =>
      intro mul num
      rw [convertDigits]
      split
      · exact Nat.le_succ_of_le (ih _ _)
      · exact Nat.le_refl _
  exact ⟨_, rfl, (hconvert _ _ _).trans (hgobble nptr)⟩

/-- In base 0 a numeral with a prefix is read up to a second prefix, and its end is stored unless it
is `0x0`. -/
theorem strtoullDetect_of_longest_marked {s ds tail : List U8} {v : ℕ} (hnil : ds ≠ [])
    (hds : ∀ c ∈ ds, isxdigit c = true)
    (h : Dialect.ganoid.Longest 0 s (0x30 :: 0x78 :: ds) v tail) (neg : Bool) :
    (¬ DoublePrefix 0 (0x30 :: 0x78 :: ds) tail →
        strtoullDetect neg s =
          (signed neg (digitsValue 16 ds), if ds = [0x30] then none else some tail)) ∧
      (DoublePrefix 0 (0x30 :: 0x78 :: ds) tail →
        ∃ t, (strtoullDetect neg s).2 = some t ∧ t.length < tail.length) := by
  have hstop := not_isxdigit_of_longest (Or.inr rfl) hds h
  have hdetect : strtoullDetect neg s = strtoullBase neg 16 (ds ++ tail) := by
    rw [h.split, List.cons_append, List.cons_append, strtoullDetect,
      detectBase_hex (isxdigit_deref_append hnil hds)]
    rfl
  rw [hdetect]
  by_cases hlone : ds = [0x30]
  · subst hlone
    rw [List.singleton_append, if_pos rfl]
    constructor
    · intro hdouble
      rw [strtoullBase_sixteen_lone neg hstop fun hx ↦ hdouble ⟨rfl, rfl, hx⟩]
      exact congrArg (·, none) (signed_zero neg).symm
    · rintro ⟨-, -, hx, hdigit⟩
      cases tail with
      | nil => exact absurd hx (by decide)
      | cons x tail =>
        obtain rfl : x = 0x78 := hx
        obtain ⟨t, ht, hle⟩ := strtoullNumber_stores neg 16 tail
        rw [strtoullBase_sixteen_marked neg (show isxdigit (deref tail) = true from hdigit)]
        exact ⟨t, ht, Nat.lt_succ_of_le hle⟩
  · rw [strtoullBase_sixteen_append neg hnil hlone hds hstop, if_neg hlone]
    refine ⟨fun _ ↦ rfl, fun hdouble ↦ absurd ?_ hlone⟩
    exact (List.cons.inj (List.cons.inj hdouble.2.1).2).2

/-- In base 0 a leading 0 starts a number of base 8, and its end is stored if a digit follows it. -/
theorem strtoullDetect_of_longest_octal {s ds tail : List U8} {v : ℕ}
    (hds : ∀ c ∈ ds, isCorrectDigit c 8 = true)
    (h : Dialect.ganoid.Longest 0 s (0x30 :: ds) v tail) (neg : Bool) :
    strtoullDetect neg s = (signed neg (digitsValue 8 ds),
      if ds = [] ∧ isdigit (deref tail) = false then none else some tail) := by
  have hmore : ∀ c, isCorrectDigit c 8 = true →
      ∃ v', Dialect.ganoid.IsNumeral 0 (0x30 :: ds ++ [c]) v' := fun c hc ↦
    ⟨_, .octal ((@isDigits_ganoid_iff 8 (by decide) (ds ++ [c])).2
      (List.forall_mem_append.2 ⟨hds, List.forall_mem_singleton.2 hc⟩))⟩
  have hstop : isCorrectDigit (deref tail) 8 = false :=
    @stop_of_longest 0 8 (by decide) s _ tail _ h hmore
  rw [h.split, List.cons_append]
  by_cases hdigit : isdigit (deref (ds ++ tail)) = true
  · rw [strtoullDetect_octal neg hdigit,
      @strtoullNumber_append 8 (by decide) (by decide) neg ds tail hds hstop, if_neg]
    rintro ⟨rfl, hnot⟩
    exact Bool.false_ne_true (hnot.symm.trans hdigit)
  · -- no digit follows the 0, so it is the whole numeral
    obtain rfl : ds = [] := by
      cases ds with
      | nil => rfl
      | cons d ds =>
        have hd := hds d List.mem_cons_self
        exact absurd ((@isCorrectDigit_iff d 8 (by decide) (by decide)).1 hd).1 hdigit
    rw [List.nil_append] at hdigit ⊢
    have hnot := (Bool.not_eq_true _).mp hdigit
    rw [strtoullDetect_lone neg hnot (not_prefix_of_longest (Or.inr rfl) h), if_pos ⟨rfl, hnot⟩]
    exact congrArg (·, none) (signed_zero neg).symm

/-- In base 0 the code reads the longest numeral up to a second prefix, and stores its end unless it
is a single 0. -/
theorem strtoullDetect_of_longest {s p tail : List U8} {v : ℕ}
    (h : Dialect.ganoid.Longest 0 s p v tail) (neg : Bool) :
    (¬ DoublePrefix 0 p tail → (strtoullDetect neg s).1 = signed neg v) ∧
      StoresEnd 0 p tail (strtoullDetect neg s).2 := by
  rcases isNumeral_ganoid_cases h.numeral with ⟨hb, -⟩ | ⟨-, ds, rfl, hnil, hds, rfl⟩ |
    ⟨-, ds, rfl, hds, rfl⟩
  · exact absurd rfl hb
  · obtain ⟨hread, hdouble⟩ := strtoullDetect_of_longest_marked hnil hds h neg
    have hlone : LoneZero 0 (0x30 :: 0x78 :: ds) tail ↔ ds = [0x30] := by
      simp [LoneZero]
    refine ⟨fun hnot ↦ by rw [hread hnot], fun hnot ↦ ?_, fun hzero hnot ↦ ?_, hdouble⟩
    · rw [hread fun hdouble ↦ hnot (Or.inr (Or.inr ⟨rfl, hdouble.2.1⟩)),
        if_neg (mt hlone.2 hnot)]
    · rw [hread hnot, if_pos (hlone.1 hzero)]
  · have hread := strtoullDetect_of_longest_octal hds h neg
    have hmark : 0x30 :: ds ≠ [0x30, 0x78, 0x30] := fun heq ↦ by
      have hx := hds 0x78 ((List.cons.inj heq).2 ▸ List.mem_cons_self)
      exact absurd hx (by decide)
    have hlone : LoneZero 0 (0x30 :: ds) tail ↔ ds = [] ∧ isdigit (deref tail) = false := by
      constructor
      · rintro (⟨h, -⟩ | ⟨-, heq, hnot⟩ | ⟨-, heq⟩)
        · exact absurd h (by decide)
        · exact ⟨(List.cons.inj heq).2, hnot⟩
        · exact absurd heq hmark
      · rintro ⟨rfl, hnot⟩
        exact Or.inr (Or.inl ⟨rfl, rfl, hnot⟩)
    refine ⟨fun _ ↦ by rw [hread], fun hnot ↦ ?_, fun hzero _ ↦ ?_, fun hdouble ↦ ?_⟩
    · rw [hread, if_neg (mt hlone.2 hnot)]
    · rw [hread, if_pos (hlone.1 hzero)]
    · exact absurd hdouble.2.1 hmark

/-- Without a 0 there is no numeral in base 0. -/
theorem strtoullDetect_of_not_zero (neg : Bool) {nptr : List U8} (h : deref nptr ≠ 0x30) :
    strtoullDetect neg nptr = (0, none) := by
  have hbase : (detectBase nptr).1 = -1 := by
    rw [detectBase, if_neg h]
    split <;> rfl
  rw [strtoullDetect]
  exact if_pos hbase

/-- Without a digit there is no numeral in base 16. -/
theorem strtoullBase_sixteen_of_not_digit (neg : Bool) {nptr : List U8}
    (h : isxdigit (deref nptr) = false) : strtoullBase neg 16 nptr = (0, none) := by
  have hzero : deref nptr ≠ 0x30 := fun heq ↦ by
    rw [heq] at h
    exact absurd h (by decide)
  rw [strtoullBase_sixteen, stripHex, if_neg hzero, h, if_neg Bool.false_ne_true]

/-- Where there is no numeral, base 0 finds no 0. -/
theorem strtoullDetect_of_no_numeral (neg : Bool) {rest : List U8}
    (hnot : ∀ p v tail, rest = p ++ tail → ¬ Dialect.ganoid.IsNumeral 0 p v) :
    strtoullDetect neg rest = (0, none) := by
  refine strtoullDetect_of_not_zero neg fun hhead ↦ ?_
  cases rest with
  | nil => exact absurd (show (0 : U8) = 0x30 from hhead) (by decide)
  | cons c t =>
    obtain rfl : c = 0x30 := hhead
    exact hnot [0x30] _ t rfl (.octal fun d hd ↦ absurd hd List.not_mem_nil)

/-- Where there is no numeral, another base finds no digit: base 16 gives up, and the others store
where they are. -/
theorem strtoullBase_of_no_numeral (neg : Bool) {base : U32} (hzero : base ≠ 0)
    (hle : base.toNat ≤ 36) {rest : List U8}
    (hnot : ∀ p v tail, rest = p ++ tail → ¬ Dialect.ganoid.IsNumeral base.toNat p v) :
    strtoullBase neg base rest = (0, if base = 16 then none else some rest) := by
  have hstop : isCorrectDigit (deref rest) base = false := by
    cases rest with
    | nil => exact isCorrectDigit_nul hle
    | cons c t =>
      exact Bool.eq_false_iff.2 fun hc ↦ hnot [c] _ t rfl
        (isNumeral_row hzero hle (List.cons_ne_nil c []) (List.forall_mem_singleton.2 hc))
  by_cases hsixteen : base = 16
  · subst hsixteen
    rw [strtoullBase_sixteen_of_not_digit neg hstop, if_pos rfl]
  · have hpos : 1 ≤ base.toNat := by bv_omega
    have hnumber := @strtoullNumber_append base hpos hle neg [] rest (by simp) hstop
    rw [List.nil_append] at hnumber
    rw [strtoullBase_of_ne hsixteen, hnumber, if_neg hsixteen]
    exact congrArg (·, some rest) (signed_zero neg)

/-! ### The contract -/

/-- **`simple_strtoull` reads numerals of its dialect.** -/
theorem simpleStrtoull_reads (s : List U8) (base : U32)
    (hbase : base = 0 ∨ 2 ≤ base.toNat ∧ base.toNat ≤ 36) :
    ReadsOwnNumeral s base.toNat (simpleStrtoull (some s) base) := by
  have hsixteen : base.toNat = 16 ↔ base = 16 :=
    ⟨fun h ↦ BitVec.eq_of_toNat_eq h, fun h ↦ congrArg BitVec.toNat h⟩
  have hzero : base.toNat = 0 ↔ base = 0 :=
    ⟨fun h ↦ BitVec.eq_of_toNat_eq h, fun h ↦ congrArg BitVec.toNat h⟩
  obtain ⟨neg, rest, hleads⟩ := exists_leads s
  rw [simpleStrtoull_some hbase, takeSign_of_leads hleads]
  refine ⟨neg, rest, hleads, fun p v tail h ↦ ?_, fun hnone ↦ ?_⟩
  · rcases eq_or_ne base 0 with rfl | hne
    · exact strtoullDetect_of_longest h neg
    · have hle : base.toNat ≤ 36 := (hbase.resolve_left hne).2
      rw [if_neg hne]
      have hnot : ∀ q t, DoublePrefix base.toNat q t → False := fun q t h ↦ hne (hzero.1 h.1)
      rcases eq_or_ne base 16 with rfl | hne'
      · have hlone : LoneZero 16 p tail ↔ p = [0x30] := by
          simp [LoneZero]
        have hread := strtoullBase_sixteen_of_longest h neg
        refine ⟨fun _ ↦ by rw [hread], fun hnot ↦ ?_, fun hzero _ ↦ ?_, fun h ↦ (hnot _ _ h).elim⟩
        · rw [hread, if_neg (mt hlone.2 hnot)]
        · rw [hread, if_pos (hlone.1 hzero)]
      · have hlone : ¬ LoneZero base.toNat p tail := by
          rintro (⟨h, -⟩ | ⟨h, -⟩ | ⟨h, -⟩)
          · exact hne' (hsixteen.1 h)
          · exact hne (hzero.1 h)
          · exact hne (hzero.1 h)
        rw [strtoullBase_of_longest hne hne' hle h neg]
        exact ⟨fun _ ↦ rfl, fun _ ↦ rfl, fun h ↦ absurd h hlone, fun h ↦ (hnot _ _ h).elim⟩
  · have hnot : ∀ p v tail, rest = p ++ tail → ¬ Dialect.ganoid.IsNumeral base.toNat p v :=
      fun p v tail hsplit hnum ↦ by
        obtain ⟨p', v', tail', h⟩ := Dialect.ganoid.exists_longest hsplit hnum
        exact hnone p' v' tail' h
    rcases eq_or_ne base 0 with rfl | hne
    · rw [if_pos rfl, strtoullDetect_of_no_numeral neg hnot]
      rfl
    · rw [if_neg hne, strtoullBase_of_no_numeral neg hne (hbase.resolve_left hne).2 hnot]
      simp only [hzero, hsixteen, hne, false_or]

end Ganoid
