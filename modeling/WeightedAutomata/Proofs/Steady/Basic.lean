import Mathlib.Logic.Equiv.Defs
import WeightedAutomata.Proofs.Nesting.Ensures

/-!
Queries with lasting answers. A memory grows as queries are asked, and what a query has answered once
it answers from then on, without effect. What is computed from such queries is one itself.
-/
namespace WeightedAutomata

variable {σ τ α β : Type}

/-- How a memory is kept: its first content, what holds of it at any time, and what it may grow
into. -/
structure Regime (σ : Type) where
  start : σ
  Sound : σ → Prop
  Later : σ → σ → Prop
  sound_start : Sound start
  refl : ∀ μ, Later μ μ
  trans : ∀ {μ ν ξ}, Later μ ν → Later ν ξ → Later μ ξ

namespace Regime

/-- Two memories side by side. -/
def pair (r : Regime σ) (r' : Regime τ) : Regime (σ × τ) where
  start := (r.start, r'.start)
  Sound μ := r.Sound μ.1 ∧ r'.Sound μ.2
  Later μ ν := r.Later μ.1 ν.1 ∧ r'.Later μ.2 ν.2
  sound_start := ⟨r.sound_start, r'.sound_start⟩
  refl μ := ⟨r.refl μ.1, r'.refl μ.2⟩
  trans h h' := ⟨r.trans h.1 h'.1, r'.trans h.2 h'.2⟩

/-- The same memory in another form. -/
def moved (r : Regime σ) (e : σ ≃ τ) : Regime τ where
  start := e r.start
  Sound ν := r.Sound (e.symm ν)
  Later ν ξ := r.Later (e.symm ν) (e.symm ξ)
  sound_start := by
    rw [e.symm_apply_apply]
    exact r.sound_start
  refl ν := r.refl (e.symm ν)
  trans h h' := r.trans h h'

/-- The query `x` lets a sound memory grow into a sound one. -/
def Keeps (r : Regime σ) (x : StateT σ Option α) : Prop :=
  ∀ μ a ν, r.Sound μ → x.run μ = some (a, ν) → r.Sound ν ∧ r.Later μ ν

variable {r : Regime σ}

theorem keeps_pure (a : α) : r.Keeps (pure a) := by
  rintro μ b ν hμ hrun
  cases hrun
  exact ⟨hμ, r.refl μ⟩

theorem Keeps.bind {x : StateT σ Option α} {f : α → StateT σ Option β} (hx : r.Keeps x)
    (hf : ∀ a, r.Keeps (f a)) : r.Keeps (x >>= f) := by
  intro μ b ξ hμ hrun
  rw [StateT.run_bind] at hrun
  obtain ⟨⟨a, ν⟩, hrun, hrun'⟩ := Option.bind_eq_some_iff.1 hrun
  obtain ⟨hν, hlater⟩ := hx μ a ν hμ hrun
  obtain ⟨hξ, hlater'⟩ := hf a ν b ξ hν hrun'
  exact ⟨hξ, r.trans hlater hlater'⟩

theorem keeps_foldlM {f : β → α → StateT σ Option β} {l : List α}
    (hf : ∀ b, ∀ a ∈ l, r.Keeps (f b a)) (b : β) : r.Keeps (l.foldlM f b) := by
  induction l generalizing b with
  | nil => exact keeps_pure b
  | cons a l ih =>
    rw [List.foldlM_cons]
    exact (hf b a List.mem_cons_self).bind fun c =>
      ih (fun d e he => hf d e (List.mem_cons_of_mem a he)) c

end Regime

/-- The answer that `x` gives at a memory and leaves it as it is. -/
noncomputable def recollect (ξ : σ) (x : StateT σ Option α) : Option α :=
  open scoped Classical in (x.run ξ).bind fun (a, ν) => if ν = ξ then some a else none

theorem recollect_eq_some {ξ : σ} {x : StateT σ Option α} {a : α} :
    recollect ξ x = some a ↔ x.run ξ = some (a, ξ) := by
  unfold recollect
  rw [Option.bind_eq_some_iff]
  constructor
  · rintro ⟨⟨b, ν⟩, hrun, hb⟩
    obtain ⟨rfl, rfl⟩ : ν = ξ ∧ b = a := by simpa using hb
    exact hrun
  · intro hrun
    exact ⟨(a, ξ), hrun, if_pos rfl⟩

/-- A memory as a part of another one. -/
structure Part (r : Regime σ) (r' : Regime τ) where
  get : τ → σ
  set : τ → σ → τ
  get_set : ∀ ν μ, get (set ν μ) = μ
  set_get : ∀ ν, set ν (get ν) = ν
  set_set : ∀ ν μ μ', set (set ν μ) μ' = set ν μ'
  sound_get : ∀ ν, r'.Sound ν → r.Sound (get ν)
  later_get : ∀ {ν ξ}, r'.Later ν ξ → r.Later (get ν) (get ξ)
  sound_set : ∀ ν μ, r'.Sound ν → r.Sound μ → r.Later (get ν) μ → r'.Sound (set ν μ)
  later_set : ∀ ν μ, r.Later (get ν) μ → r'.Later ν (set ν μ)

namespace Part

variable {r : Regime σ} {r' : Regime τ} (p : Part r r')

/-- A query that knows one part of a memory. -/
def within (x : StateT σ Option α) : StateT τ Option α :=
  fun ν => (x (p.get ν)).map fun (a, μ) => (a, p.set ν μ)

theorem run_within_eq_some {x : StateT σ Option α} {ν ξ : τ} {a : α} :
    (p.within x).run ν = some (a, ξ) ↔ ∃ μ, x.run (p.get ν) = some (a, μ) ∧ p.set ν μ = ξ := by
  refine Option.map_eq_some_iff.trans ⟨?_, ?_⟩
  · rintro ⟨⟨b, μ⟩, hrun, heq⟩
    cases heq
    exact ⟨μ, hrun, rfl⟩
  · rintro ⟨μ, hrun, rfl⟩
    exact ⟨(a, μ), hrun, rfl⟩

theorem keeps_within {x : StateT σ Option α} (h : r.Keeps x) : r'.Keeps (p.within x) := by
  intro ν a ξ hν hrun
  obtain ⟨μ, hx, rfl⟩ := p.run_within_eq_some.1 hrun
  obtain ⟨hμ, hlater⟩ := h _ a μ (p.sound_get ν hν) hx
  exact ⟨p.sound_set ν μ hν hμ hlater, p.later_set ν μ hlater⟩

theorem recollect_within (x : StateT σ Option α) (ξ : τ) :
    recollect ξ (p.within x) = recollect (p.get ξ) x := by
  ext a
  rw [recollect_eq_some, recollect_eq_some, run_within_eq_some]
  constructor
  · rintro ⟨μ, hrun, hset⟩
    obtain rfl : p.get ξ = μ := by rw [← hset, p.get_set]
    exact hrun
  · intro hrun
    exact ⟨p.get ξ, hrun, p.set_get ξ⟩

/-- The queries that know one part of a memory, as a translation. -/
def translation : Translation (StateT σ Option) (StateT τ Option) where
  map := p.within
  pure a := by
    funext ν
    exact congrArg (fun ξ => some (a, ξ)) (p.set_get ν)
  bind x f := by
    funext ν
    change ((x (p.get ν)).bind fun q => f q.1 q.2).map _ = ((x (p.get ν)).map _).bind _
    cases x (p.get ν) with
    | none => rfl
    | some q =>
      change _ = (f q.1 (p.get (p.set ν q.2))).map _
      rw [p.get_set]
      refine congrArg (Option.map · _) (funext fun y => ?_)
      dsimp only
      rw [p.set_set]
  outOfSteps := rfl

def first : Part r (r.pair r') where
  get := Prod.fst
  set ν μ := (μ, ν.2)
  get_set _ _ := rfl
  set_get _ := rfl
  set_set _ _ _ := rfl
  sound_get _ h := h.1
  later_get h := h.1
  sound_set _ _ hν hμ _ := ⟨hμ, hν.2⟩
  later_set ν _ h := ⟨h, r'.refl ν.2⟩

def second : Part r' (r.pair r') where
  get := Prod.snd
  set ν μ := (ν.1, μ)
  get_set _ _ := rfl
  set_get _ := rfl
  set_set _ _ _ := rfl
  sound_get _ h := h.2
  later_get h := h.2
  sound_set _ _ hν hμ _ := ⟨hν.1, hμ⟩
  later_set ν _ h := ⟨r.refl ν.1, h⟩

/-- The same memory in another form. -/
def moved (e : σ ≃ τ) : Part r (r.moved e) where
  get := e.symm
  set _ μ := e μ
  get_set _ μ := e.symm_apply_apply μ
  set_get ν := e.apply_symm_apply ν
  set_set _ _ _ := rfl
  sound_get _ h := h
  later_get h := h
  sound_set _ μ _ hμ _ := by
    change r.Sound (e.symm (e μ))
    rwa [e.symm_apply_apply]
  later_set ν μ h := by
    change r.Later (e.symm ν) (e.symm (e μ))
    rwa [e.symm_apply_apply]

/-- A part of a part. -/
def comp {υ : Type} {r'' : Regime υ} (p : Part r r') (q : Part r' r'') : Part r r'' where
  get ν := p.get (q.get ν)
  set ν μ := q.set ν (p.set (q.get ν) μ)
  get_set ν μ := by rw [q.get_set, p.get_set]
  set_get ν := by rw [p.set_get, q.set_get]
  set_set ν μ μ' := by rw [q.get_set, q.set_set, p.set_set]
  sound_get ν h := p.sound_get _ (q.sound_get ν h)
  later_get h := p.later_get (q.later_get h)
  sound_set ν μ hν hμ h :=
    q.sound_set ν _ hν (p.sound_set _ μ (q.sound_get ν hν) hμ h) (p.later_set _ μ h)
  later_set ν μ h := q.later_set ν _ (p.later_set _ μ h)

theorem within_comp {υ : Type} {r'' : Regime υ} (p : Part r r') (q : Part r' r'')
    (x : StateT σ Option α) : (p.comp q).within x = q.within (p.within x) := by
  funext ν
  change (x _).map _ = ((x _).map _).map _
  rw [Option.map_map]
  rfl

end Part

/-- A query that keeps to a regime. Once it has answered, it gives the same answer again at any later
time and leaves the memory as it is. -/
@[ext] structure Steady (r : Regime σ) (α : Type) where
  ask : StateT σ Option α
  keeps : r.Keeps ask
  again : ∀ μ a ν, r.Sound μ → ask.run μ = some (a, ν) →
    ∀ ξ, r.Later ν ξ → ask.run ξ = some (a, ξ)

namespace Steady

variable {r : Regime σ} {r' : Regime τ}

instance : Monad (Steady r) where
  pure a :=
    { ask := pure a
      keeps := Regime.keeps_pure a
      again := by
        rintro μ b ν - hrun ξ -
        cases hrun
        rfl }
  bind x f :=
    { ask := x.ask >>= fun a => (f a).ask
      keeps := x.keeps.bind fun a => (f a).keeps
      again := by
        intro μ b ν hμ hrun ξ hξ
        rw [StateT.run_bind] at hrun
        obtain ⟨⟨a, ν'⟩, hrun, hrun'⟩ := Option.bind_eq_some_iff.1 hrun
        obtain ⟨hν', -⟩ := x.keeps μ a ν' hμ hrun
        obtain ⟨-, hlater⟩ := (f a).keeps ν' b ν hν' hrun'
        rw [StateT.run_bind, x.again μ a ν' hμ hrun ξ (r.trans hlater hξ)]
        exact (f a).again ν' b ν hν' hrun' ξ hξ }

instance : StepLimited (Steady r) where
  outOfSteps :=
    { ask := StepLimited.outOfSteps
      keeps := nofun
      again := nofun }

/-- Asking the queries one after another. -/
def asking : Translation (Steady r) (StateT σ Option) where
  map := ask
  pure _ := rfl
  bind _ _ := rfl
  outOfSteps := rfl

theorem recollect_of_run (x : Steady r α) {μ ν : σ} {a : α} (hμ : r.Sound μ)
    (hrun : x.ask.run μ = some (a, ν)) {ξ : σ} (hξ : r.Later ν ξ) : recollect ξ x.ask = some a :=
  recollect_eq_some.2 (x.again μ a ν hμ hrun ξ hξ)

theorem run_bind_eq {x y : StateT σ Option α} {f g : α → StateT σ Option β} {μ : σ}
    (hx : x.run μ = y.run μ) (hf : ∀ a ν, y.run μ = some (a, ν) → (f a).run ν = (g a).run ν) :
    (x >>= f).run μ = (y >>= g).run μ := by
  rw [StateT.run_bind, StateT.run_bind, hx]
  cases hrun : y.run μ with
  | none => rfl
  | some p => exact hf p.1 p.2 hrun

/-- Steps that agree on what has the property `I`, which lasts, come to the same outcome. -/
theorem run_foldlM_eq {f : β → α → StateT σ Option β} {g : β → α → Steady r β} {I : σ → α → Prop}
    (hI : ∀ {μ ν}, r.Later μ ν → ∀ {a}, I μ a → I ν a)
    (hf : ∀ b a μ, r.Sound μ → I μ a → (f b a).run μ = (g b a).ask.run μ) {μ : σ} (hμ : r.Sound μ)
    {l : List α} (hl : ∀ a ∈ l, I μ a) (b : β) :
    (l.foldlM f b).run μ = (l.foldlM g b).ask.run μ := by
  induction l generalizing μ b with
  | nil => rfl
  | cons a l ih =>
    rw [List.foldlM_cons, List.foldlM_cons]
    refine run_bind_eq (hf b a μ hμ (hl a List.mem_cons_self)) fun c ν hrun => ?_
    obtain ⟨hν, hlater⟩ := (g b a).keeps μ c ν hμ hrun
    exact ih hν (fun e he => hI hlater (hl e (List.mem_cons_of_mem a he))) c

theorem run_mapM_eq {f : α → StateT σ Option β} {g : α → Steady r β} {I : σ → α → Prop}
    (hI : ∀ {μ ν}, r.Later μ ν → ∀ {a}, I μ a → I ν a)
    (hf : ∀ a μ, r.Sound μ → I μ a → (f a).run μ = (g a).ask.run μ) {μ : σ} (hμ : r.Sound μ)
    {l : List α} (hl : ∀ a ∈ l, I μ a) :
    (l.mapM f).run μ = (l.mapM fun a => (g a).ask).run μ := by
  induction l generalizing μ with
  | nil => rfl
  | cons a l ih =>
    rw [List.mapM_cons, List.mapM_cons]
    refine run_bind_eq (hf a μ hμ (hl a List.mem_cons_self)) fun c ν hrun => ?_
    obtain ⟨hν, hlater⟩ := (g a).keeps μ c ν hμ hrun
    exact run_bind_eq (ih hν fun e he => hI hlater (hl e (List.mem_cons_of_mem a he)))
      fun _ _ _ => rfl

/-- What has been answered before the time of a sound memory. -/
noncomputable def recalling (ξ : σ) (hξ : r.Sound ξ) : Translation (Steady r) Option where
  map x := recollect ξ x.ask
  pure a := recollect_eq_some.2 rfl
  bind x f := by
    ext b
    rw [Option.bind_eq_bind, Option.bind_eq_some_iff]
    simp only [recollect_eq_some]
    change ((x.ask >>= fun a => (f a).ask).run ξ = _) ↔ _
    rw [StateT.run_bind]
    constructor
    · intro hrun
      obtain ⟨⟨a, ν⟩, hrun, hrun'⟩ := Option.bind_eq_some_iff.1 hrun
      obtain ⟨hν, -⟩ := x.keeps ξ a ν hξ hrun
      -- The memory in between is both earlier and later than `ξ`, so that `x` has no effect at `ξ`.
      have hagain := x.again ξ a ν hξ hrun ξ ((f a).keeps ν b ξ hν hrun').2
      obtain rfl : ν = ξ := by
        rw [hagain] at hrun
        cases hrun
        rfl
      exact ⟨a, hagain, hrun'⟩
    · rintro ⟨a, hrun, hrun'⟩
      rw [hrun]
      exact hrun'
  outOfSteps := rfl

theorem recalling_run (x : Steady r α) {μ ν : σ} {a : α} (hμ : r.Sound μ)
    (hrun : x.ask.run μ = some (a, ν)) :
    ∃ hν : r.Sound ν, r.Later μ ν ∧ (recalling ν hν).map x = some a := by
  obtain ⟨hν, hlater⟩ := x.keeps μ a ν hμ hrun
  exact ⟨hν, hlater, x.recollect_of_run hμ hrun (r.refl ν)⟩

/-- Queries that know one part of a memory. -/
def within (p : Part r r') : Translation (Steady r) (Steady r') where
  map x :=
    { ask := p.within x.ask
      keeps := p.keeps_within x.keeps
      again := by
        intro ν a ξ hν hrun ω hω
        obtain ⟨μ, hx, rfl⟩ := p.run_within_eq_some.1 hrun
        have hlater := p.later_get hω
        rw [p.get_set] at hlater
        exact p.run_within_eq_some.2
          ⟨_, x.again _ a μ (p.sound_get ν hν) hx _ hlater, p.set_get ω⟩ }
  pure a := Steady.ext (p.translation.pure a)
  bind x f := Steady.ext (p.translation.bind x.ask fun a => (f a).ask)
  outOfSteps := rfl

end Steady

end WeightedAutomata
