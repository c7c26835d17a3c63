import Mathlib.Data.List.Basic
import Mathlib.Data.List.Induction

/-! Relative paths normalised without a look at any file system, over names of any
kind: which component ends up at the front. -/
namespace AdlServer.LexicalPath
variable {α : Type}

inductive Component (α : Type) where
  | name (a : α)
  | up
  deriving DecidableEq

/-- A way up removes the name before it, and stays where there is none. The components
are kept with the last one first. -/
def push (s : List (Component α)) (c : Component α) : List (Component α) :=
  match s,c with
  | .name _::s,.up => s
  | s,c => c::s

@[simp] theorem push_name (s : List (Component α)) (a : α) : push s (.name a) = .name a::s := by
  cases s with
  | nil => rfl
  | cons c s => cases c <;> rfl

def normalise (cs : List (Component α)) : List (Component α) := (cs.foldl push []).reverse

def level : List (Component α) → Int
  | [] => 0
  | .name _::cs => level cs+1
  | .up::cs => level cs-1

/-- The components never lead above where they start. -/
def Stays (cs : List (Component α)) : Prop := ∀ p, p <+: cs → 0 ≤ level p

variable {cs ds s : List (Component α)} {a : α}

theorem level_append (cs ds : List (Component α)) : level (cs++ds) = level cs+level ds := by
  induction cs with
  | nil => simp [level]
  | cons c cs ih =>
    cases c with
    | name a =>
      simp only [List.cons_append,level,ih]
      omega
    | up =>
      simp only [List.cons_append,level,ih]
      omega

theorem stays_nil : Stays ([] : List (Component α)) := by
  intro p hp
  rw [List.prefix_nil.mp hp]
  exact Int.le_refl 0

theorem Stays.append (h : Stays cs) (hd : ∀ p, p <+: ds → 0 ≤ level cs+level p) :
    Stays (cs++ds) := by
  intro p hp
  obtain ⟨t,ht⟩ := hp
  cases List.append_eq_append_iff.mp ht with
  | inl hp =>
    obtain ⟨q,hq,_⟩ := hp
    exact h p ⟨q,hq.symm⟩
  | inr hp =>
    obtain ⟨q,hq,hds⟩ := hp
    rw [hq,level_append]
    exact hd q ⟨t,hds.symm⟩

theorem Stays.snoc {c : Component α} (h : Stays cs) (hc : 0 ≤ level (cs++[c])) :
    Stays (cs++[c]) := by
  intro p hp
  cases List.prefix_concat_iff.mp hp with
  | inl hp => rwa [hp]
  | inr hp => exact h p hp

theorem foldl_push_stays (names : List α) (s : List (Component α))
    (h : ∀ p, p <+: cs → 0 ≤ names.length+level p) :
    ∃ names' : List α, cs.foldl push (names.map .name++s) = names'.map .name++s ∧
      (names'.length:Int) = names.length+level cs := by
  induction cs generalizing names with
  | nil => exact ⟨names,rfl,by simp [level]⟩
  | cons c cs ih =>
    cases c with
    | name a =>
      have hnext (p : List (Component α)) (hp : p <+: cs) : 0 ≤ ((a::names).length:Int)+level p := by
        have := h (.name a::p) (List.cons_prefix_cons.mpr ⟨rfl,hp⟩)
        simp only [level,List.length_cons] at this ⊢
        omega
      obtain ⟨names',hf,hl⟩ := ih (a::names) hnext
      refine ⟨names',by rw [List.foldl_cons,push_name]; exact hf,?_⟩
      simp only [level,List.length_cons] at hl ⊢
      omega
    | up =>
      have hone := h [.up] (List.cons_prefix_cons.mpr ⟨rfl,List.nil_prefix⟩)
      cases names with
      | nil => simp [level] at hone
      | cons n names =>
        have hnext (p : List (Component α)) (hp : p <+: cs) : 0 ≤ (names.length:Int)+level p := by
          have := h (.up::p) (List.cons_prefix_cons.mpr ⟨rfl,hp⟩)
          simp only [level,List.length_cons] at this
          omega
        obtain ⟨names',hf,hl⟩ := ih names hnext
        refine ⟨names',hf,?_⟩
        simp only [level,List.length_cons] at hl ⊢
        omega

inductive Reached (cs : List (Component α)) : List (Component α) → Prop where
  | start (h0 : level cs = 0) (h : Stays cs) : Reached cs []
  | under {a : α} {names : List α} {before after : List (Component α)}
    (he : cs = before++.name a::after) (h0 : level before = 0) (hb : Stays before)
    (ha : Stays after) (hl : level after = names.length) :
    Reached cs (names.map .name++[.name a])
  | above (s : List (Component α)) : Reached cs (s++[.up])

theorem Reached.push (h : Reached cs s) (c : Component α) : Reached (cs++[c]) (push s c) := by
  cases h with
  | start h0 h =>
    cases c with
    | name a =>
      rw [push_name]
      exact @Reached.under _ (cs++[.name a]) a [] cs [] rfl h0 h stays_nil rfl
    | up => exact .above []
  | above s =>
    cases c with
    | name a =>
      rw [push_name]
      exact .above (.name a::s)
    | up =>
      cases s with
      | nil => exact .above [.up]
      | cons d s =>
        cases d with
        | name a => exact .above s
        | up => exact .above (.up::.up::s)
  | @under a names before after he h0 hb ha hl =>
    subst he
    cases c with
    | name b =>
      have hl' : level (after++[.name b]) = ((b::names).length:Int) := by
        rw [level_append,hl]
        simp [level]
      rw [push_name]
      refine @Reached.under _ _ a (b::names) before (after++[.name b]) (by simp) h0 hb ?_ hl'
      exact ha.snoc (by rw [hl']; exact Int.natCast_nonneg _)
    | up =>
      have hl' : level (after++[.up]) = names.length-1 := by
        rw [level_append,hl]
        rfl
      cases names with
      | nil =>
        have hzero : level (before++.name a::(after++[.up])) = 0 := by
          rw [level_append,h0,level,hl']
          rfl
        have hstays : Stays (before++.name a::after) := by
          refine hb.append fun p hp => ?_
          cases p with
          | nil => simp [level,h0]
          | cons d p =>
            obtain ⟨hd,hp⟩ := List.cons_prefix_cons.mp hp
            have := ha p hp
            subst hd
            simp only [level,h0]
            omega
        have hsplit : before++.name a::after++[.up] = before++.name a::(after++[.up]) := by simp
        have hend : level ((before++.name a::after)++[.up]) = 0 := by rw [hsplit,hzero]
        exact .start hend (hstays.snoc (Int.le_of_eq hend.symm))
      | cons n names =>
        have hl'' : level (after++[.up]) = (names.length:Int) := by
          rw [hl',List.length_cons]
          omega
        refine @Reached.under _ _ a names before (after++[.up]) (by simp) h0 hb ?_ hl''
        exact ha.snoc (by rw [hl'']; exact Int.natCast_nonneg _)

theorem reached (cs : List (Component α)) : Reached cs (cs.foldl push []) := by
  induction cs using List.reverseRecOn with
  | nil => exact .start rfl stays_nil
  | append_singleton cs c ih =>
    rw [List.foldl_append]
    exact ih.push c

/-- A name ends up at the front exactly if what comes before it leads nowhere and what
comes behind it never leads above it. -/
theorem head_normalise_iff (cs : List (Component α)) (a : α) :
    (normalise cs).head? = some (.name a) ↔ ∃ before after, cs = before++.name a::after ∧
      level before = 0 ∧ Stays before ∧ Stays after := by
  rw [normalise]
  rw [List.head?_reverse]
  constructor
  · intro hlast
    have h := reached cs
    generalize cs.foldl push [] = s at h hlast
    cases h with
    | start h0 h => simp at hlast
    | above s => simp at hlast
    | @under b names before after he h0 hb ha hl =>
      have hab : b = a := by simpa using hlast
      subst hab
      exact ⟨before,after,he,h0,hb,ha⟩
  · intro h
    obtain ⟨before,after,he,h0,hb,ha⟩ := h
    obtain ⟨front,hf,hl⟩ := @foldl_push_stays _ before [] [] (by simpa [Stays] using hb)
    have hnil : front = [] := by
      apply List.eq_nil_of_length_eq_zero
      simp only [List.length_nil] at hl
      omega
    obtain ⟨names,hn,_⟩ := @foldl_push_stays _ after [] [.name a] (by simpa [Stays] using ha)
    have hfold : cs.foldl push [] = names.map .name++[.name a] := by
      have hbefore : before.foldl push [] = [] := by simpa [hnil] using hf
      rw [he,List.foldl_append,hbefore]
      exact hn
    rw [hfold]
    simp

end AdlServer.LexicalPath
