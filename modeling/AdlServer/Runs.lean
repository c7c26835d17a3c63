import Mathlib.Data.List.Basic

/-! Runs of a system that say at each step where it was taken and what was done, and the
exact condition for a property to hold all along: none of the steps that break it. -/
namespace AdlServer.Runs
variable {σ α : Type}

inductive Run (step : σ → α → σ → Prop) : σ → List (σ×α) → σ → Prop where
  | nil (s : σ) : Run step s [] s
  | cons {s t u : σ} {a : α} {as : List (σ×α)} (h : step s a t) (hs : Run step t as u) :
    Run step s ((s,a)::as) u

def visited (as : List (σ×α)) (t : σ) : List σ := as.map Prod.fst++[t]

namespace Run
variable {step : σ → α → σ → Prop} {s t : σ} {as : List (σ×α)}

theorem append {u : σ} {bs : List (σ×α)} (h : Run step s as t) (h' : Run step t bs u) :
    Run step s (as++bs) u := by
  induction h with
  | nil => exact h'
  | cons hstep _ ih => exact .cons hstep (ih h')

theorem of_mem (h : Run step s as t) {p : σ×α} (hp : p∈as) :
    ∃ before after u, as = before++p::after ∧ Run step s before p.1 ∧ step p.1 p.2 u ∧
      Run step u after t := by
  induction h with
  | nil => cases hp
  | @cons s u t a as h hs ih =>
    cases List.mem_cons.mp hp with
    | inl hp =>
      subst hp
      exact ⟨[],as,u,rfl,.nil s,h,hs⟩
    | inr hp =>
      obtain ⟨before,after,v,has,hbefore,hv,hafter⟩ := ih hp
      exact ⟨(s,a)::before,after,v,by rw [has]; rfl,.cons h hbefore,hv,hafter⟩

theorem exists_step {P : σ → Prop} (h : Run step s as t) (hs : ¬ P s) (ht : P t) :
    ∃ p∈as, ∃ u, step p.1 p.2 u ∧ ¬ P p.1 ∧ P u := by
  induction h with
  | nil => exact absurd ht hs
  | @cons s u t a as h _ ih =>
    by_cases hu : P u
    · exact ⟨(s,a),List.mem_cons_self,u,h,hs,hu⟩
    · obtain ⟨p,hp,hrest⟩ := ih hu ht
      exact ⟨p,List.mem_cons_of_mem _ hp,hrest⟩

theorem mem_visited (h : Run step s as t) : s∈visited as t := by
  cases h with
  | nil => simp [visited]
  | cons _ _ => simp [visited]

/-- Where a step from a good state leads to a good one unless it is one of the bad steps,
a run is good throughout exactly if it has no bad step. -/
theorem good_iff (h : Run step s as t) {I Good : σ → Prop} {Bad : σ → α → Prop}
    (hinv : ∀ s a t, I s → step s a t → I t)
    (hstep : ∀ s a t, I s → Good s → step s a t → (Good t ↔ ¬ Bad s a))
    (hI : I s) (hs : Good s) :
    (∀ x∈visited as t, Good x) ↔ ∀ p∈as, ¬ Bad p.1 p.2 := by
  induction h with
  | nil => simpa [visited] using hs
  | @cons s u t a as h hrun ih =>
    have hu := hstep s a u hI hs h
    rw [visited,List.map_cons,List.cons_append,List.forall_mem_cons,List.forall_mem_cons]
    change Good s ∧ (∀ x∈visited as t, Good x) ↔ _
    by_cases hbad : Bad s a
    · -- the state behind a bad step is the next one visited
      exact iff_of_false (fun hall => hu.mp (hall.2 u hrun.mem_visited) hbad)
        fun hall => hall.1 hbad
    · rw [ih (hinv s a u hI h) (hu.mpr hbad)]
      exact ⟨fun hall => ⟨hbad,hall.2⟩,fun hall => ⟨hs,hall.2⟩⟩

/-- What only some steps bring about, and no step undoes, holds at the end exactly if it has
been brought about. -/
theorem ever_iff (h : Run step s as t) {I P : σ → Prop} {Brings : σ → α → Prop}
    (hinv : ∀ s a t, I s → step s a t → I t)
    (hstep : ∀ s a t, I s → step s a t → (P t ↔ P s ∨ Brings s a)) (hI : I s) :
    P t ↔ P s ∨ ∃ p∈as, Brings p.1 p.2 := by
  induction h with
  | nil => simp
  | @cons s u t a as h _ ih =>
    rw [ih (hinv s a u hI h),hstep s a u hI h,List.exists_mem_cons_iff,or_assoc]

/-- Where no step makes a countdown longer and some steps take one off, a run has taken off
as many as it has of these. -/
theorem countdown (h : Run step s as t) {I : σ → Prop} {Left : Nat → σ → Prop} (ends : σ×α → Bool)
    (hinv : ∀ s a t, I s → step s a t → I t)
    (hstep : ∀ s a t n, I s → step s a t → Left n s → Left (n-(ends (s,a)).toNat) t)
    (hI : I s) {n : Nat} (hs : Left n s) : Left (n-as.countP ends) t := by
  induction h generalizing n with
  | nil => exact hs
  | @cons s u t a as h _ ih =>
    have hrest := ih (hinv s a u hI h) (hstep s a u n hI h hs)
    rw [List.countP_cons]
    cases hends : ends (s,a) with
    | true =>
      rw [hends,Nat.sub_sub,Bool.toNat_true,Nat.add_comm] at hrest
      exact hrest
    | false =>
      rw [hends] at hrest
      exact hrest

end Run

theorem exists_adjacent {P Q : α → Prop} (d e : α) (mid : List α) (hd : P d) (he : Q e) :
    ∃ before d' mid' e' after, d::(mid++[e]) = before++d'::(mid'++e'::after) ∧ P d' ∧ Q e' ∧
      ∀ x∈mid', ¬ P x ∧ ¬ Q x := by
  induction mid generalizing d with
  | nil => exact ⟨[],d,[],e,[],rfl,hd,he,by simp⟩
  | cons x mid ih =>
    by_cases hx : Q x
    · exact ⟨[],d,[],x,mid++[e],rfl,hd,hx,by simp⟩
    · by_cases hp : P x
      · obtain ⟨before,d',mid',e',after,heq,hrest⟩ := ih x hp
        exact ⟨d::before,d',mid',e',after,by simpa using heq,hrest⟩
      · obtain ⟨before,d',mid',e',after,heq,hd',he',hmid⟩ := ih d hd
        cases before with
        | nil =>
          obtain ⟨rfl,htail⟩ := List.cons.inj heq
          refine ⟨[],d,x::mid',e',after,by simpa using htail,hd,he',fun y hy => ?_⟩
          cases List.mem_cons.mp hy with
          | inl hy =>
            rw [hy]
            exact ⟨hp,hx⟩
          | inr hy => exact hmid y hy
        | cons y before =>
          obtain ⟨rfl,htail⟩ := List.cons.inj heq
          exact ⟨d::x::before,d',mid',e',after,by simpa using htail,hd',he',hmid⟩

end AdlServer.Runs
