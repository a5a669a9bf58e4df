import Mathlib.Algebra.Group.Nat.Defs
import Mathlib.Tactic.Common

/-!
# Fuelled computations

A loop written in C need not terminate, so its value is a *partial* one. A `Fuelled α` is such a
value in executable form: a function from an amount of fuel to an optional answer, together with the
proof that an answer once given is not changed by more fuel. Nothing here uses classical choice or
a termination argument, so a fuelled program can be run on a concrete input by the kernel.

The observable behaviour is `Returns`: the answer that some amount of fuel produces. It is
single-valued (`Returns.unique`), and it is compositional: `returns_bind_iff` and `returns_loop_iff`
describe sequencing and looping without mentioning fuel again. Clients reason with three rules
about `loop`:

* `Returns.of_invariant` — partial correctness, from an invariant of the loop head;
* `exists_returns_of_variant` — termination, from a natural-valued variant that each pass decreases;
* `not_returns_of_invariant` — divergence, from a set of states the loop never leaves.

Two loops are compared by `Returns.simulate`, from a relation between their states that every pass
keeps. Loops that only count up to a last index have a rule of their own (`exists_returns_upTo`), and
so has the fold over a list (`exists_returns_foldlM`).
-/

/-- A computation that answers once it has enough fuel. -/
structure Fuelled (α : Type*) where
  /-- The answer within the given fuel, if there is one yet. -/
  run : ℕ → Option α
  /-- More fuel never changes an answer. -/
  mono : ∀ {m n : ℕ} {r : α}, m ≤ n → run m = some r → run n = some r

namespace Fuelled

universe u

variable {α β σ ρ : Type u}

/-- The computation answers `r`, for some amount of fuel. -/
def Returns (x : Fuelled α) (r : α) : Prop :=
  ∃ n, x.run n = some r

/-- **Answers are unique**: two runs with different fuel cannot disagree. -/
theorem Returns.unique {x : Fuelled α} {r r' : α} (h : x.Returns r) (h' : x.Returns r') :
    r = r' := by
  obtain ⟨m, hm⟩ := h
  obtain ⟨n, hn⟩ := h'
  have h₁ := x.mono (Nat.le_max_left m n) hm
  have h₂ := x.mono (Nat.le_max_right m n) hn
  exact Option.some.inj (h₁.symm.trans h₂)

/-! ### Answers, failure to answer, and sequencing -/

/-- The computation that answers at once. -/
def ret (a : α) : Fuelled α where
  run _ := some a
  mono _ h := h

/-- The computation that never answers, as `while (1);` does not. -/
def never : Fuelled α where
  run _ := none
  mono _ h := absurd h (by simp)

/-- Run `x`, then `f` on its answer. -/
def andThen (x : Fuelled α) (f : α → Fuelled β) : Fuelled β where
  run n := (x.run n).bind fun a ↦ (f a).run n
  mono {m n r} hle h := by
    obtain ⟨a, ha, hf⟩ := Option.bind_eq_some_iff.1 h
    exact Option.bind_eq_some_iff.2 ⟨a, x.mono hle ha, (f a).mono hle hf⟩

instance : Monad Fuelled where
  pure := ret
  bind := andThen

@[simp]
theorem returns_pure_iff {a r : α} : (pure a : Fuelled α).Returns r ↔ a = r :=
  ⟨fun ⟨_, h⟩ ↦ Option.some.inj h, fun h ↦ ⟨0, congrArg some h⟩⟩

theorem returns_pure (a : α) : (pure a : Fuelled α).Returns a :=
  returns_pure_iff.2 rfl

@[simp]
theorem not_returns_never {r : α} : ¬ (never : Fuelled α).Returns r :=
  fun ⟨_, h⟩ ↦ absurd h (by simp [never])

/-- Sequencing returns exactly what the second computation returns on the first one's answer. -/
@[simp]
theorem returns_bind_iff {x : Fuelled α} {f : α → Fuelled β} {r : β} :
    (x >>= f).Returns r ↔ ∃ a, x.Returns a ∧ (f a).Returns r := by
  constructor
  · rintro ⟨n, h⟩
    obtain ⟨a, ha, hf⟩ := Option.bind_eq_some_iff.1 h
    exact ⟨a, ⟨n, ha⟩, ⟨n, hf⟩⟩
  · rintro ⟨a, ⟨m, ha⟩, ⟨n, hf⟩⟩
    exact ⟨max m n, Option.bind_eq_some_iff.2
      ⟨a, x.mono (Nat.le_max_left m n) ha, (f a).mono (Nat.le_max_right m n) hf⟩⟩

/-- A first computation with a known answer can be skipped. -/
theorem Returns.bind_iff {x : Fuelled α} {f : α → Fuelled β} {a : α} {r : β}
    (h : x.Returns a) : (x >>= f).Returns r ↔ (f a).Returns r := by
  rw [returns_bind_iff]
  exact ⟨fun ⟨b, hb, hr⟩ ↦ by rwa [h.unique hb], fun hr ↦ ⟨a, h, hr⟩⟩

theorem Returns.bind {x : Fuelled α} {f : α → Fuelled β} {a : α} {r : β}
    (h : x.Returns a) (hf : (f a).Returns r) : (x >>= f).Returns r :=
  h.bind_iff.2 hf

/-- What is said of some answer is said of the one there is. -/
theorem Returns.exists_and_iff {x : Fuelled (α × β)} {a : α} {b : β} (h : x.Returns (a, b))
    {P : α → Prop} : (∃ a', x.Returns (a', b) ∧ P a') ↔ P a := by
  constructor
  · rintro ⟨a', h', hP⟩
    obtain rfl : a = a' := congrArg Prod.fst (h.unique h')
    exact hP
  · exact fun hP ↦ ⟨a, h, hP⟩

/-! ### Loops -/

/-- The fuelled run of a loop. Each pass through the body costs one unit of fuel and either goes
round again with a new state (`Sum.inl`) or leaves with an answer (`Sum.inr`). -/
def loopRun (body : σ → Fuelled (σ ⊕ ρ)) : ℕ → σ → Option ρ
  | 0, _ => none
  | n + 1, s =>
    match (body s).run n with
    | none => none
    | some (Sum.inr r) => some r
    | some (Sum.inl s') => loopRun body n s'

theorem loopRun_mono (body : σ → Fuelled (σ ⊕ ρ)) {m n : ℕ} {s : σ} {r : ρ} (hle : m ≤ n)
    (h : loopRun body m s = some r) : loopRun body n s = some r := by
  -- by induction on the fuel that was enough, pass by pass
  induction m generalizing n s with
  | zero => simp [loopRun] at h
  | succ m ih =>
    obtain ⟨n, rfl⟩ : ∃ k, n = k + 1 := ⟨n - 1, by omega⟩
    have hle' : m ≤ n := by omega
    rw [loopRun] at h ⊢
    rcases hb : (body s).run m with - | s' | r'
    · simp [hb] at h
    · rw [(body s).mono hle' hb]
      rw [hb] at h
      exact ih hle' h
    · rw [(body s).mono hle' hb]
      rw [hb] at h
      exact h

/-- Repeat the body until it leaves. -/
def loop (body : σ → Fuelled (σ ⊕ ρ)) (s : σ) : Fuelled ρ where
  run n := loopRun body n s
  mono hle h := loopRun_mono body hle h

/-- **Unrolling.** A loop returns what one pass and then the loop again return. -/
theorem returns_loop_iff {body : σ → Fuelled (σ ⊕ ρ)} {s : σ} {r : ρ} :
    (loop body s).Returns r ↔
      (body s).Returns (Sum.inr r) ∨
        ∃ s', (body s).Returns (Sum.inl s') ∧ (loop body s').Returns r := by
  constructor
  · rintro ⟨n, h⟩
    cases n with
    | zero => simp [loop, loopRun] at h
    | succ n =>
      simp only [loop, loopRun] at h
      rcases hb : (body s).run n with - | s' | r'
      · simp [hb] at h
      · rw [hb] at h
        exact Or.inr ⟨s', ⟨n, hb⟩, ⟨n, h⟩⟩
      · rw [hb] at h
        exact Or.inl ⟨n, hb.trans (by rw [Option.some.inj h])⟩
  · rintro (⟨n, hb⟩ | ⟨s', ⟨m, hb⟩, ⟨n, hn⟩⟩)
    · exact ⟨n + 1, by simp [loop, loopRun, hb]⟩
    · -- the pass and the rest of the loop may need different amounts
      refine ⟨max m n + 1, ?_⟩
      simp only [loop, loopRun, (body s).mono (Nat.le_max_left m n) hb]
      exact loopRun_mono body (Nat.le_max_right m n) hn

theorem returns_loop_of_leave {body : σ → Fuelled (σ ⊕ ρ)} {s : σ} {r : ρ}
    (h : (body s).Returns (Sum.inr r)) : (loop body s).Returns r :=
  returns_loop_iff.2 (Or.inl h)

theorem returns_loop_of_again {body : σ → Fuelled (σ ⊕ ρ)} {s s' : σ} {r : ρ}
    (h : (body s).Returns (Sum.inl s')) (hr : (loop body s').Returns r) :
    (loop body s).Returns r :=
  returns_loop_iff.2 (Or.inr ⟨s', h, hr⟩)

/-- **Partial correctness.** An invariant of the loop head that gives the postcondition where the
loop leaves gives it for every answer. -/
theorem Returns.of_invariant {body : σ → Fuelled (σ ⊕ ρ)} (Inv : σ → Prop) (Post : ρ → Prop)
    (hagain : ∀ s s', Inv s → (body s).Returns (Sum.inl s') → Inv s')
    (hleave : ∀ s r, Inv s → (body s).Returns (Sum.inr r) → Post r)
    {s : σ} {r : ρ} (hs : Inv s) (h : (loop body s).Returns r) : Post r := by
  obtain ⟨n, h⟩ := h
  induction n generalizing s with
  | zero => simp [loop, loopRun] at h
  | succ n ih =>
    simp only [loop, loopRun] at h
    rcases hb : (body s).run n with - | s' | r'
    · simp [hb] at h
    · rw [hb] at h
      exact ih (hagain s s' hs ⟨n, hb⟩) h
    · rw [hb] at h
      obtain rfl := Option.some.inj h
      exact hleave s r' hs ⟨n, hb⟩

/-- **Total correctness.** If every pass from a state of the invariant returns, and either leaves
with the postcondition or goes round with the invariant and a smaller variant, the loop returns. -/
theorem exists_returns_of_variant {body : σ → Fuelled (σ ⊕ ρ)} (Inv : σ → Prop)
    (Post : ρ → Prop) (variant : σ → ℕ)
    (hbody : ∀ s, Inv s →
      (∃ r, (body s).Returns (Sum.inr r) ∧ Post r) ∨
        ∃ s', (body s).Returns (Sum.inl s') ∧ Inv s' ∧ variant s' < variant s)
    {s : σ} (hs : Inv s) : ∃ r, (loop body s).Returns r ∧ Post r := by
  induction hv : variant s using Nat.strongRecOn generalizing s with
  | _ v ih =>
    rcases hbody s hs with ⟨r, hr, hpost⟩ | ⟨s', hs', hinv, hlt⟩
    · exact ⟨r, returns_loop_of_leave hr, hpost⟩
    · obtain ⟨r, hr, hpost⟩ := ih (variant s') (by omega) hinv rfl
      exact ⟨r, returns_loop_of_again hs' hr, hpost⟩

/-- **Divergence.** A loop that goes round again from every state of a set it never leaves does not
return. -/
theorem not_returns_of_invariant {body : σ → Fuelled (σ ⊕ ρ)} (Inv : σ → Prop)
    (hagain : ∀ s, Inv s → ∃ s', (body s).Returns (Sum.inl s') ∧ Inv s')
    {s : σ} (hs : Inv s) (r : ρ) : ¬ (loop body s).Returns r := by
  intro h
  refine Returns.of_invariant Inv (fun _ ↦ False) ?_ ?_ hs h
  · intro t t' ht hb
    obtain ⟨u, hu, hinv⟩ := hagain t ht
    obtain rfl := Sum.inl.inj (hb.unique hu)
    exact hinv
  · intro t q ht hb
    obtain ⟨u, hu, -⟩ := hagain t ht
    exact absurd (hb.unique hu) (by simp)

/-- **Simulation.** If related states make passes with related results, what one loop returns the
other one does too, up to the relation of the answers. -/
theorem Returns.simulate {τ ρ' : Type u} {body : σ → Fuelled (σ ⊕ ρ)} {body' : τ → Fuelled (τ ⊕ ρ')}
    (Rel : σ → τ → Prop) (Res : ρ → ρ' → Prop)
    (hpass : ∀ s t x, Rel s t → (body s).Returns x →
      ∃ y, (body' t).Returns y ∧ Sum.LiftRel Rel Res x y)
    {s : σ} {t : τ} {r : ρ} (hrel : Rel s t) (h : (loop body s).Returns r) :
    ∃ r', (loop body' t).Returns r' ∧ Res r r' := by
  obtain ⟨n, h⟩ := h
  induction n generalizing s t with
  | zero => simp [loop, loopRun] at h
  | succ n ih =>
    simp only [loop, loopRun] at h
    rcases hb : (body s).run n with - | x
    · simp [hb] at h
    · obtain ⟨y, hy, hxy⟩ := hpass s t x hrel ⟨n, hb⟩
      rw [hb] at h
      cases hxy with
      | inl hnext =>
        obtain ⟨r', hr', hres⟩ := ih hnext h
        exact ⟨r', returns_loop_of_again hy hr', hres⟩
      | inr hres =>
        obtain rfl := Option.some.inj h
        exact ⟨_, returns_loop_of_leave hy, hres⟩

/-! ### Counting

The loop `for (i = first; i <= last; i++)`. Where `last` is the largest index there is, it does not
end. -/

/-- A counting loop returns when its last index has a successor, and the invariant that each step
carries to the next index holds behind the last one. -/
theorem exists_returns_upTo {w : ℕ} {step : σ → BitVec w → σ} (Inv : ℕ → σ → Prop)
    {first last : BitVec w} (hle : first.toNat ≤ last.toNat + 1) (hlast : last.toNat + 1 < 2 ^ w)
    (hstep : ∀ i s, first.toNat ≤ i.toNat → i.toNat ≤ last.toNat → Inv i.toNat s →
      Inv (i.toNat + 1) (step s i))
    {s : σ} (hs : Inv first.toNat s) :
    ∃ s', (loop (fun t : σ × BitVec w ↦
      if t.2 ≤ last then pure (.inl (step t.1 t.2, t.2 + 1)) else pure (.inr t.1))
      (s, first)).Returns s' ∧ Inv (last.toNat + 1) s' := by
  refine exists_returns_of_variant
    (fun t : σ × BitVec w ↦ first.toNat ≤ t.2.toNat ∧ t.2.toNat ≤ last.toNat + 1 ∧ Inv t.2.toNat t.1)
    (Inv (last.toNat + 1)) (fun t ↦ last.toNat + 1 - t.2.toNat) ?_ ⟨Nat.le_refl _, hle, hs⟩
  rintro ⟨cur, i⟩ ⟨hlo, hhi, hinv⟩
  dsimp only at hlo hhi hinv ⊢
  by_cases hi : i ≤ last
  · have hi' : i.toNat ≤ last.toNat := hi
    have hone : (1 : BitVec w).toNat = 1 := Nat.mod_eq_of_lt (show 1 < 2 ^ w by omega)
    have hnext : (i + 1).toNat = i.toNat + 1 := by
      rw [BitVec.toNat_add_of_lt (by omega), hone]
    rw [if_pos hi]
    refine Or.inr ⟨_, returns_pure _, ?_⟩
    dsimp only
    rw [hnext]
    exact ⟨⟨by omega, by omega, hstep i cur hlo hi' hinv⟩, by omega⟩
  · have hi' : ¬ i.toNat ≤ last.toNat := hi
    have hend : i.toNat = last.toNat + 1 := by omega
    rw [if_neg hi]
    exact Or.inl ⟨_, returns_pure _, hend ▸ hinv⟩

/-! ### Folding over a list -/

/-- A loop over a list returns when each of its steps does, and the invariant that each step carries
past one more element holds at the end. -/
theorem exists_returns_foldlM {f : β → α → Fuelled β} (Inv : List α → β → Prop) (l : List α)
    (hstep : ∀ done a rest b, l = done ++ a :: rest → Inv done b →
      ∃ b', (f b a).Returns b' ∧ Inv (done ++ [a]) b')
    {b : β} (hb : Inv [] b) : ∃ b', (l.foldlM f b).Returns b' ∧ Inv l b' := by
  suffices h : ∀ rest done b, l = done ++ rest → Inv done b →
      ∃ b', (rest.foldlM f b).Returns b' ∧ Inv l b' from h l [] b rfl hb
  intro rest
  induction rest with
  | nil =>
    intro done b hl hb
    rw [List.append_nil] at hl
    exact ⟨b, returns_pure b, hl ▸ hb⟩
  | cons a rest ih =>
    intro done b hl hb
    obtain ⟨b₁, hret, hb₁⟩ := hstep done a rest b hl hb
    obtain ⟨b', hret', hb'⟩ := ih (done ++ [a]) b₁ (by rw [hl, List.append_assoc]; rfl) hb₁
    refine ⟨b', ?_, hb'⟩
    rw [List.foldlM_cons]
    exact hret.bind hret'

/-- A fold over one more element. -/
theorem Returns.foldlM_concat {f : β → α → Fuelled β} {l : List α} {a : α} {b c r : β}
    (h : (l.foldlM f b).Returns c) (hf : (f c a).Returns r) :
    ((l ++ [a]).foldlM f b).Returns r := by
  induction l generalizing b with
  | nil =>
    obtain rfl : b = c := returns_pure_iff.1 h
    rw [List.nil_append, List.foldlM_cons]
    exact hf.bind (returns_pure r)
  | cons d l ih =>
    rw [List.foldlM_cons] at h
    obtain ⟨b', hb', h⟩ := returns_bind_iff.1 h
    rw [List.cons_append, List.foldlM_cons]
    exact hb'.bind (ih h)

end Fuelled
