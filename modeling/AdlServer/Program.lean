import Mathlib.Tactic.Common

/-! Programs that may throw or run for ever, as monotone functions of a fuel.
Every loop of a source text is one `loop` of a turn function; the rules below
are all that is used of the fuel elsewhere. -/
namespace AdlServer.Program
variable {ε α β σ ρ : Type}

/-- One turn of a loop: round again, or out with a result. -/
inductive Turn (σ ρ : Type) where
  | again (s : σ)
  | leave (r : ρ)

/-- With fuel `n` the program has an outcome or is still running; more fuel
never changes an outcome. -/
structure Prog (ε α : Type) where
  run : Nat → Option (Except ε α)
  mono : ∀ {n m : Nat} {o : Except ε α}, n ≤ m → run n = some o → run m = some o

namespace Prog

def ret (a : α) : Prog ε α := ⟨fun _ => some (.ok a), fun _ h => h⟩

def throw (e : ε) : Prog ε α := ⟨fun _ => some (.error e), fun _ h => h⟩

def andThen (p : Prog ε α) (f : α → Prog ε β) : Prog ε β where
  run n := match p.run n with
    | none => none
    | some (.error e) => some (.error e)
    | some (.ok a) => (f a).run n
  mono := by
    intro n m o hnm h
    cases hp : p.run n with
    | none => simp [hp] at h
    | some r =>
      rw [p.mono hnm hp]
      cases r with
      | error e => simpa [hp] using h
      | ok a => exact (f a).mono hnm (by simpa [hp] using h)

instance : Monad (Prog ε) where
  pure := ret
  bind := andThen

def loopRun (body : σ → Prog ε (Turn σ ρ)) : Nat → σ → Option (Except ε ρ)
  | 0, _ => none
  | n+1, s => match (body s).run n with
    | none => none
    | some (.error e) => some (.error e)
    | some (.ok (.leave r)) => some (.ok r)
    | some (.ok (.again s')) => loopRun body n s'

theorem loopRun_mono (body : σ → Prog ε (Turn σ ρ)) {n m : Nat} {s : σ} {o : Except ε ρ}
    (hnm : n ≤ m) (h : loopRun body n s = some o) : loopRun body m s = some o := by
  induction n generalizing m s with
  | zero => simp [loopRun] at h
  | succ n ih =>
    cases m with
    | zero => omega
    | succ m =>
      have hle : n ≤ m := by omega
      cases hb : (body s).run n with
      | none => simp [loopRun, hb] at h
      | some t =>
        have hm := (body s).mono hle hb
        cases t with
        | error e => simpa [loopRun, hb, hm] using h
        | ok t =>
          cases t with
          | leave r => simpa [loopRun, hb, hm] using h
          | again s' =>
            have h' : loopRun body n s' = some o := by simpa [loopRun, hb] using h
            simpa [loopRun, hm] using ih hle h'

def loop (body : σ → Prog ε (Turn σ ρ)) (s : σ) : Prog ε ρ :=
  ⟨fun n => loopRun body n s, fun hnm h => loopRun_mono body hnm h⟩

def Ends (p : Prog ε α) (o : Except ε α) : Prop := ∃ n, p.run n = some o

def Returns (p : Prog ε α) (a : α) : Prop := p.Ends (.ok a)

def Halts (p : Prog ε α) : Prop := ∃ o, p.Ends o

theorem Ends.unique {p : Prog ε α} {o o' : Except ε α} (h : p.Ends o) (h' : p.Ends o') :
    o = o' := by
  obtain ⟨n, hn⟩ := h
  obtain ⟨m, hm⟩ := h'
  have h1 := p.mono (Nat.le_max_left n m) hn
  have h2 := p.mono (Nat.le_max_right n m) hm
  exact Option.some.inj (h1.symm.trans h2)

theorem Returns.unique {p : Prog ε α} {a b : α} (h : p.Returns a) (h' : p.Returns b) : a = b :=
  Except.ok.inj (Ends.unique h h')

theorem Returns.halts {p : Prog ε α} {a : α} (h : p.Returns a) : p.Halts := ⟨_, h⟩

theorem Returns.ends_iff {p : Prog ε α} {a : α} (h : p.Returns a) (o : Except ε α) :
    p.Ends o ↔ o = .ok a :=
  ⟨fun ho => Ends.unique ho h, fun ho => ho ▸ h⟩

@[simp] theorem ends_pure (a : α) (o : Except ε α) :
    Ends (pure a : Prog ε α) o ↔ o = .ok a := by
  constructor
  · rintro ⟨n, hn⟩
    exact (Option.some.inj hn).symm
  · rintro rfl
    exact ⟨0, rfl⟩

@[simp] theorem returns_pure (a b : α) : Returns (pure a : Prog ε α) b ↔ b = a := by
  simp [Returns]

theorem returns_self (a : α) : Returns (pure a : Prog ε α) a := ⟨0,rfl⟩

theorem halts_pure (a : α) : Halts (pure a : Prog ε α) := (returns_self a).halts

@[simp] theorem ends_throw (e : ε) (o : Except ε α) :
    Ends (throw e : Prog ε α) o ↔ o = .error e := by
  constructor
  · rintro ⟨n, hn⟩
    exact (Option.some.inj hn).symm
  · rintro rfl
    exact ⟨0, rfl⟩

@[simp] theorem not_returns_throw (e : ε) (a : α) : ¬ Returns (throw e : Prog ε α) a := by
  simp [Returns]

theorem ends_bind (p : Prog ε α) (f : α → Prog ε β) (o : Except ε β) :
    Ends (p >>= f) o ↔
      (∃ a, p.Returns a ∧ (f a).Ends o) ∨ (∃ e, p.Ends (.error e) ∧ o = .error e) := by
  constructor
  · rintro ⟨n, hn⟩
    change (andThen p f).run n = some o at hn
    cases hp : p.run n with
    | none => simp [andThen, hp] at hn
    | some r =>
      cases r with
      | error e => exact .inr ⟨e, ⟨n, hp⟩, by simpa [andThen, hp] using hn.symm⟩
      | ok a => exact .inl ⟨a, ⟨n, hp⟩, ⟨n, by simpa [andThen, hp] using hn⟩⟩
  · rintro (⟨a, ⟨n, hn⟩, ⟨m, hm⟩⟩ | ⟨e, ⟨n, hn⟩, rfl⟩)
    · have h1 := p.mono (Nat.le_max_left n m) hn
      have h2 := (f a).mono (Nat.le_max_right n m) hm
      exact ⟨max n m, by change (andThen p f).run _ = _; simp [andThen, h1, h2]⟩
    · exact ⟨n, by change (andThen p f).run n = _; simp [andThen, hn]⟩

theorem returns_bind (p : Prog ε α) (f : α → Prog ε β) (b : β) :
    Returns (p >>= f) b ↔ ∃ a, p.Returns a ∧ (f a).Returns b := by
  simp [Returns, ends_bind]

@[simp] theorem ends_pure_bind (a : α) (f : α → Prog ε β) (o : Except ε β) :
    Ends (pure a >>= f) o ↔ (f a).Ends o := by
  simp [ends_bind]

@[simp] theorem returns_pure_bind (a : α) (f : α → Prog ε β) (b : β) :
    Returns (pure a >>= f) b ↔ (f a).Returns b :=
  ends_pure_bind a f (.ok b)

/-- `try { p } catch (...)`: how `p` has ended, as a value. -/
def attempt {ε' : Type} (p : Prog ε α) : Prog ε' (Except ε α) where
  run n := (p.run n).map .ok
  mono := by
    intro n m o hnm h
    obtain ⟨r, hr, rfl⟩ := Option.map_eq_some_iff.mp h
    rw [p.mono hnm hr]
    rfl

@[simp] theorem returns_attempt {ε' : Type} (p : Prog ε α) (o : Except ε α) :
    Returns (attempt p : Prog ε' (Except ε α)) o ↔ p.Ends o := by
  constructor
  · rintro ⟨n, hn⟩
    obtain ⟨r, hr, he⟩ := Option.map_eq_some_iff.mp hn
    cases he
    exact ⟨n, hr⟩
  · rintro ⟨n, hn⟩
    exact ⟨n, by simp [attempt, hn]⟩

theorem pure_bind (a : α) (f : α → Prog ε β) : (pure a >>= f) = f a := rfl

theorem bind_pure (p : Prog ε α) : (p >>= pure) = p := by
  obtain ⟨run,mono⟩ := p
  have hrun : (andThen ⟨run,mono⟩ ret).run = run := by
    funext n
    change (match run n with
      | none => none
      | some (.error e) => some (.error e)
      | some (.ok a) => some (.ok a)) = run n
    cases run n with
    | none => rfl
    | some o =>
      cases o with
      | ok a => rfl
      | error e => rfl
  change andThen ⟨run,mono⟩ ret = ⟨run,mono⟩
  cases h : andThen ⟨run,mono⟩ ret
  rw [h] at hrun
  cases hrun
  rfl

theorem Returns.ends_bind {p : Prog ε α} {a : α} (h : p.Returns a) (f : α → Prog ε β)
    (o : Except ε β) : Ends (p >>= f) o ↔ (f a).Ends o := by
  rw [Prog.ends_bind]
  constructor
  · rintro (⟨b, hb, ho⟩ | ⟨e, he, rfl⟩)
    · rwa [h.unique hb]
    · cases Ends.unique he h
  · exact fun ho => .inl ⟨a, h, ho⟩

theorem Returns.bind {p : Prog ε α} {a : α} {f : α → Prog ε β} {b : β}
    (h : p.Returns a) (hf : (f a).Returns b) : Returns (p >>= f) b :=
  (h.ends_bind f _).mpr hf

theorem ends_bind_pure (p : Prog ε α) (o : Except ε α) : Ends (p >>= pure) o ↔ p.Ends o := by
  rw [ends_bind]
  cases o with
  | ok a => simp [Returns]
  | error e => simp

theorem throws_bind {p : Prog ε α} {e : ε} (h : p.Ends (.error e)) (f : α → Prog ε β) :
    Ends (p >>= f) (.error e) :=
  (ends_bind p f _).mpr (.inr ⟨e, h, rfl⟩)

theorem halts_bind {p : Prog ε α} {f : α → Prog ε β} (h : p.Halts)
    (hf : ∀ a, p.Returns a → (f a).Halts) : Halts (p >>= f) := by
  obtain ⟨o,ho⟩ := h
  cases o with
  | error e => exact ⟨_,throws_bind ho f⟩
  | ok a =>
    obtain ⟨o',ho'⟩ := hf a ho
    exact ⟨o',(Returns.ends_bind ho f o').mpr ho'⟩

theorem not_halts_bind {p : Prog ε α} (h : ¬ p.Halts) (f : α → Prog ε β) :
    ¬ Halts (p >>= f) := by
  rintro ⟨o, ho⟩
  rcases (Prog.ends_bind p f o).mp ho with ⟨a, ha, -⟩ | ⟨e, he, -⟩
  · exact h ha.halts
  · exact h ⟨_, he⟩

theorem ends_loop (body : σ → Prog ε (Turn σ ρ)) (s : σ) (o : Except ε ρ) :
    Ends (loop body s) o ↔
      (∃ s', (body s).Returns (.again s') ∧ Ends (loop body s') o) ∨
      (∃ r, (body s).Returns (.leave r) ∧ o = .ok r) ∨
      (∃ e, (body s).Ends (.error e) ∧ o = .error e) := by
  constructor
  · rintro ⟨n, hn⟩
    change loopRun body n s = some o at hn
    cases n with
    | zero => simp [loopRun] at hn
    | succ n =>
      cases hb : (body s).run n with
      | none => simp [loopRun, hb] at hn
      | some t =>
        cases t with
        | error e => exact .inr (.inr ⟨e, ⟨n, hb⟩, by simpa [loopRun, hb] using hn.symm⟩)
        | ok t =>
          cases t with
          | leave r => exact .inr (.inl ⟨r, ⟨n, hb⟩, by simpa [loopRun, hb] using hn.symm⟩)
          | again s' => exact .inl ⟨s', ⟨n, hb⟩, ⟨n, by simpa [loop, loopRun, hb] using hn⟩⟩
  · rintro (⟨s', ⟨n, hn⟩, ⟨m, hm⟩⟩ | ⟨r, ⟨n, hn⟩, rfl⟩ | ⟨e, ⟨n, hn⟩, rfl⟩)
    · change loopRun body m s' = some o at hm
      have h1 := (body s).mono (Nat.le_max_left n m) hn
      have h2 := loopRun_mono body (Nat.le_max_right n m) hm
      exact ⟨max n m+1, by simp [loop, loopRun, h1, h2]⟩
    · exact ⟨n+1, by simp [loop, loopRun, hn]⟩
    · exact ⟨n+1, by simp [loop, loopRun, hn]⟩

theorem ends_loop_again {body : σ → Prog ε (Turn σ ρ)} {s : σ} (s' : σ)
    (h : (body s).Returns (.again s')) (o : Except ε ρ) :
    Ends (loop body s) o ↔ Ends (loop body s') o := by
  rw [ends_loop]
  constructor
  · rintro (⟨s'', hs, ho⟩ | ⟨r, hr, -⟩ | ⟨e, he, -⟩)
    · cases h.unique hs
      exact ho
    · cases h.unique hr
    · cases Ends.unique he h
  · exact fun ho => .inl ⟨s', h, ho⟩

theorem ends_loop_turns {body : σ → Prog ε (Turn σ ρ)} (s : Nat → σ) {n : Nat}
    (h : ∀ k, k < n → (body (s k)).Returns (.again (s (k+1)))) (o : Except ε ρ) :
    Ends (loop body (s 0)) o ↔ Ends (loop body (s n)) o := by
  induction n with
  | zero => rfl
  | succ n ih =>
    rw [ih fun k hk => h k (Nat.lt_succ_of_lt hk)]
    exact ends_loop_again _ (h n (Nat.lt_succ_self n)) o

theorem returns_loop_leave {body : σ → Prog ε (Turn σ ρ)} {s : σ} {r : ρ}
    (h : (body s).Returns (.leave r)) : Returns (loop body s) r :=
  (ends_loop body s _).mpr (.inr (.inl ⟨r, h, rfl⟩))

theorem throws_loop {body : σ → Prog ε (Turn σ ρ)} {s : σ} {e : ε}
    (h : (body s).Ends (.error e)) : Ends (loop body s) (.error e) :=
  (ends_loop body s _).mpr (.inr (.inr ⟨e, h, rfl⟩))

theorem loop_not_halts {body : σ → Prog ε (Turn σ ρ)} {s : σ} (h : ¬ (body s).Halts) :
    ¬ Halts (loop body s) := by
  rintro ⟨o, ho⟩
  rcases (ends_loop body s o).mp ho with ⟨s', hs, -⟩ | ⟨r, hr, -⟩ | ⟨e, he, -⟩
  · exact h hs.halts
  · exact h hr.halts
  · exact h ⟨_, he⟩

/-- Variant rule: turns that end, keep `P` and lower `μ` when they go round make
a loop that ends. -/
theorem loop_halts {body : σ → Prog ε (Turn σ ρ)} (P : σ → Prop) (μ : σ → Nat)
    (hb : ∀ s, P s → (body s).Halts)
    (hs : ∀ s s', P s → (body s).Returns (.again s') → P s' ∧ μ s' < μ s)
    (s : σ) (h : P s) : Halts (loop body s) := by
  generalize hn : μ s = n
  induction n using Nat.strongRecOn generalizing s with
  | ind n ih =>
    subst hn
    obtain ⟨o, ho⟩ := hb s h
    cases o with
    | error e => exact ⟨_, throws_loop ho⟩
    | ok t =>
      cases t with
      | leave r => exact ⟨_, returns_loop_leave ho⟩
      | again s' =>
        obtain ⟨h', hlt⟩ := hs s s' h ho
        obtain ⟨o', ho'⟩ := ih (μ s') hlt s' h' rfl
        exact ⟨o', (ends_loop_again s' ho o').mpr ho'⟩

/-- A loop whose turns keep `P` and always go round never ends. -/
theorem loop_endless {body : σ → Prog ε (Turn σ ρ)} (P : σ → Prop)
    (hs : ∀ s, P s → ∃ s', (body s).Returns (.again s') ∧ P s')
    (s : σ) (h : P s) : ¬ Halts (loop body s) := by
  rintro ⟨o, n, hn⟩
  induction n generalizing s with
  | zero => simp [loop, loopRun] at hn
  | succ n ih =>
    obtain ⟨s', ⟨m, hm⟩, h'⟩ := hs s h
    cases hb : (body s).run n with
    | none => simp [loop, loopRun, hb] at hn
    | some t =>
      have ht : t = .ok (.again s') := Ends.unique ⟨n, hb⟩ ⟨m, hm⟩
      subst ht
      exact ih s' h' (by simpa [loop, loopRun, hb] using hn)

/-- An outcome whose result satisfies `Q`, or whose exception satisfies `E`. -/
def Meets (Q : α → Prop) (E : ε → Prop) : Except ε α → Prop
  | .ok a => Q a
  | .error e => E e

def Ensures (p : Prog ε α) (Q : α → Prop) (E : ε → Prop) : Prop := ∀ o, p.Ends o → Meets Q E o

section
variable {Q : α → Prop} {E : ε → Prop}

theorem ensures_pure {a : α} (h : Q a) : Ensures (pure a : Prog ε α) Q E := by
  intro o ho
  rwa [(ends_pure a o).mp ho]

theorem ensures_throw {e : ε} (h : E e) : Ensures (throw e : Prog ε α) Q E := by
  intro o ho
  rwa [(ends_throw e o).mp ho]

theorem ensures_true (p : Prog ε α) : Ensures p (fun _ => True) fun _ => True := by
  intro o _
  cases o <;> trivial

theorem Ensures.result {p : Prog ε α} {a : α} (h : Ensures p Q E) (ha : p.Returns a) : Q a :=
  h _ ha

theorem Ensures.mono {p : Prog ε α} {Q' : α → Prop} {E' : ε → Prop} (h : Ensures p Q E)
    (hq : ∀ a, Q a → Q' a) (he : ∀ e, E e → E' e) : Ensures p Q' E' := by
  intro o ho
  cases o with
  | ok a => exact hq a (h _ ho)
  | error e => exact he e (h _ ho)

theorem Ensures.bind {p : Prog ε α} {f : α → Prog ε β} {R : β → Prop} (h : Ensures p Q E)
    (hf : ∀ a, Q a → Ensures (f a) R E) : Ensures (p >>= f) R E := by
  intro o ho
  rcases (ends_bind p f o).mp ho with ⟨a,ha,hfa⟩ | ⟨e,he,rfl⟩
  · exact hf a (h _ ha) o hfa
  · exact h _ he

def Kept (I : σ → Prop) (Q : ρ → Prop) : Turn σ ρ → Prop
  | .again s => I s
  | .leave r => Q r

/-- Invariant rule. -/
theorem ensures_loop {body : σ → Prog ε (Turn σ ρ)} {R : ρ → Prop} (I : σ → Prop)
    (hb : ∀ s, I s → Ensures (body s) (Kept I R) E) (s : σ) (h : I s) :
    Ensures (loop body s) R E := by
  intro o ⟨n,hn⟩
  induction n generalizing s with
  | zero => simp [loop,loopRun] at hn
  | succ n ih =>
    cases hr : (body s).run n with
    | none => simp [loop,loopRun,hr] at hn
    | some t =>
      have ht := hb s h t ⟨n,hr⟩
      cases t with
      | error e =>
        have ho : o = .error e := by simpa [loop,loopRun,hr] using hn.symm
        subst ho
        exact ht
      | ok t =>
        cases t with
        | leave r =>
          have ho : o = .ok r := by simpa [loop,loopRun,hr] using hn.symm
          subst ho
          exact ht
        | again s' => exact ih s' ht (by simpa [loop,loopRun,hr] using hn)

theorem Ensures.returns {p : Prog ε α} (h : Ensures p Q fun _ => False) (hh : p.Halts) :
    ∃ a, p.Returns a ∧ Q a := by
  obtain ⟨o,ho⟩ := hh
  cases o with
  | ok a => exact ⟨a,ho,h _ ho⟩
  | error e => exact (h _ ho).elim

end

end Prog
end AdlServer.Program
