import AdlServer.ReleaseAcquire
import AdlServer.Runs
import Mathlib.Tactic.SplitIfs

/-! `Singleton`: the two variants of `getInstance()` that check `m_instance` twice, in memory with
release and acquire. -/
namespace AdlServer.Base
open ReleaseAcquire Runs

inductive Place where
  | m_instance
  | object (n : Nat)
  deriving DecidableEq

inductive Word where
  | null
  | pointer (n : Nat)
  | blank | constructed
  deriving DecidableEq

inductive Point where
  | outside | locking | checking | building
  | storing (tmp : Nat)
  | unlocking (tmp : Nat)
  | returned (tmp : Nat)
  deriving DecidableEq

def Point.Inside : Point → Prop
  | .checking | .building => True
  | .storing _ | .unlocking _ => True
  | .outside | .locking => False
  | .returned _ => False

/-- How the first load and the store are ordered. -/
structure Orders where
  load : Order
  store : Order

namespace Orders

/-- `memory_order_acquire` and `memory_order_release`. -/
def learn_from_csdn : Orders where
  load := .ordered
  store := .ordered

/-- Relaxed accesses beside an `atomic_thread_fence`. -/
def use_memory_barrier : Orders where
  load := .fenced
  store := .fenced

end Orders

/-- `mutexView` is what the last owner of the mutex had seen. -/
structure Singleton (τ : Type) where
  memory : History Place Word
  view : τ → ThreadView Place
  point : τ → Point
  owner : Option τ
  mutexView : View Place
  built : Nat

namespace Singleton
variable {τ : Type}

def create (τ : Type) : Singleton τ where
  memory x t := if t = 0 then
      some { value := match x with
              | .m_instance => .null
              | .object _ => .blank
             view := fun _ => 0 }
    else none
  view _ := { cur := fun _ => 0, rel := fun _ => 0, acq := fun _ => 0 }
  point _ := .outside
  owner := none
  mutexView _ := 0
  built := 0

def move [DecidableEq τ] (s : Singleton τ) (a : τ) (p : Point) (v : ThreadView Place) : Singleton τ :=
  { s with point := Function.update s.point a p, view := Function.update s.view a v }

def afterLoad : Word → Point
  | .pointer n => .returned n
  | _ => .locking

def afterCheck : Word → Point
  | .pointer n => .unlocking n
  | _ => .building

inductive Action (τ : Type) where
  | load (a : τ) | lock (a : τ) | check (a : τ) | build (a : τ) | store (a : τ) | unlock (a : τ)
  | again (a : τ) | observe (a b : τ)

/-- A thread goes on. A load may read any message that is not older than what its thread has
seen, a store come at any time behind that. -/
inductive Step [DecidableEq τ] (o : Orders) : Singleton τ → Action τ → Singleton τ → Prop where
  | load {s : Singleton τ} {a : τ} {t : Nat} {m : Message Place Word} (ha : s.point a = .outside)
    (hr : Readable s.memory (s.view a) .m_instance t m) :
    Step o s (.load a) (s.move a (afterLoad m.value) ((s.view a).load .m_instance t o.load m))
  | lock {s : Singleton τ} {a : τ} (ha : s.point a = .locking) (hf : s.owner = none) :
    Step o s (.lock a)
      { s.move a .checking ((s.view a).join s.mutexView) with owner := some a }
  | check {s : Singleton τ} {a : τ} {t : Nat} {m : Message Place Word} (ha : s.point a = .checking)
    (hr : Readable s.memory (s.view a) .m_instance t m) :
    Step o s (.check a) (s.move a (afterCheck m.value) ((s.view a).load .m_instance t .relaxed m))
  -- the constructor writes as any code does
  | build {s : Singleton τ} {a : τ} (ha : s.point a = .building) :
    Step o s (.build a)
      { s.move a (.storing s.built) ((s.view a).store (.object s.built) 1 .relaxed) with
        memory := s.memory.post (.object s.built) 1
          ((s.view a).stored (.object s.built) 1 .relaxed .constructed)
        built := s.built+1 }
  | store {s : Singleton τ} {a : τ} {t n : Nat} (ha : s.point a = .storing n)
    (hw : Writable s.memory (s.view a) .m_instance t) :
    Step o s (.store a)
      { s.move a (.unlocking n) ((s.view a).store .m_instance t o.store) with
        memory := s.memory.post .m_instance t
          ((s.view a).stored .m_instance t o.store (.pointer n)) }
  | unlock {s : Singleton τ} {a : τ} {n : Nat} (ha : s.point a = .unlocking n) :
    Step o s (.unlock a)
      { s.move a (.returned n) (s.view a) with
        owner := none
        mutexView := s.mutexView ⊔ (s.view a).cur }
  | again {s : Singleton τ} {a : τ} {n : Nat} (ha : s.point a = .returned n) :
    Step o s (.again a) (s.move a .outside (s.view a))
  -- whatever else passes between two threads
  | observe {s : Singleton τ} (a b : τ) :
    Step o s (.observe a b) (s.move a (s.point a) ((s.view a).join (s.view b).cur))

/-- What callers rely on: one object, and whoever has it finds nothing but what its constructor
has written. -/
structure Safe (s : Singleton τ) : Prop where
  once : s.built ≤ 1
  same : ∀ a b m n, s.point a = .returned m → s.point b = .returned n → m = n
  constructed : ∀ a n t m, s.point a = .returned n →
    Readable s.memory (s.view a) (.object n) t m → m.value = .constructed

/-! The invariant. -/

def Knows (t : Nat) (v : View Place) : Prop := t ≤ v .m_instance ∧ 1 ≤ v (.object 0)

theorem Knows.mono {t : Nat} {v w : View Place} (h : Knows t v) (hle : v ≤ w) : Knows t w :=
  ⟨h.1.trans (hle _),h.2.trans (hle _)⟩

def Ordered (o : Orders) : Prop := o.load ≠ .relaxed ∧ o.store ≠ .relaxed

def Pointer (o : Orders) (built : Nat) (t : Nat) (m : Message Place Word) : Prop :=
  (t = 0 ∧ m.value = .null) ∨
    (0 < t ∧ m.value = .pointer 0 ∧ built = 1 ∧ (o.store ≠ .relaxed → 1 ≤ m.view (.object 0)))

def Local (o : Orders) (s : Singleton τ) (v : ThreadView Place) : Point → Prop
  | .outside | .locking => True
  | .checking => s.mutexView ≤ v.cur
  | .building => s.built = 0
  | .storing n => n = 0 ∧ s.built = 1 ∧ 1 ≤ v.cur (.object 0) ∧
    ∀ t m, s.memory .m_instance t = some m → t = 0
  | .unlocking n => n = 0 ∧ 1 ≤ v.cur (.object 0)
  | .returned n => n = 0 ∧ (Ordered o → 1 ≤ v.cur (.object 0))

structure Inv (o : Orders) (s : Singleton τ) : Prop where
  objects : ∀ n t m, s.memory (.object n) t = some m → t = 0 ∨ (t = 1 ∧ m.value = .constructed)
  pointers : ∀ t m, s.memory .m_instance t = some m → Pointer o s.built t m
  once : s.built ≤ 1
  owner : ∀ a, s.owner = some a ↔ (s.point a).Inside
  known : ∀ a, Local o s (s.view a) (s.point a)
  -- a thread that has built the object is about to store the pointer, or somebody has
  made : s.built = 1 → (∃ a, s.point a = .storing 0) ∨
    ∃ t m, 0 < t ∧ s.memory .m_instance t = some m
  -- and who has stored it still owns the mutex, or whoever owns it next will see it
  passed : ∀ t m, 0 < t → s.memory .m_instance t = some m → Knows t s.mutexView ∨
    ∃ a n, s.point a = .unlocking n ∧ Knows t (s.view a).cur

variable {o : Orders} {s s' : Singleton τ} {a b : τ} {p : Point} {v w : ThreadView Place}

theorem Local.mono (h : Local o s v p) (hle : v.cur ≤ w.cur) : Local o s w p := by
  cases p with
  | outside => trivial
  | locking => trivial
  | checking => exact le_trans h hle
  | building => exact h
  | storing n => exact ⟨h.1,h.2.1,h.2.2.1.trans (hle _),h.2.2.2⟩
  | unlocking n => exact ⟨h.1,h.2.trans (hle _)⟩
  | returned n => exact ⟨h.1,fun ho => (h.2 ho).trans (hle _)⟩

theorem Local.outside (h : Local o s v p) (hp : ¬ p.Inside) : Local o s' v p := by
  cases p with
  | outside => trivial
  | locking => trivial
  | checking => exact absurd trivial hp
  | building => exact absurd trivial hp
  | storing n => exact absurd trivial hp
  | unlocking n => exact absurd trivial hp
  | returned n => exact h

theorem Inv.alone (h : Inv o s) (ha : (s.point a).Inside) (hne : b ≠ a) : ¬ (s.point b).Inside := by
  intro hb
  have hoa := (h.owner a).mpr ha
  rw [(h.owner b).mpr hb] at hoa
  exact hne (Option.some.inj hoa)

theorem Inv.stored_seen (h : Inv o s) (ha : s.point a = .checking) {t : Nat}
    {m : Message Place Word} (ht : 0 < t) (hm : s.memory .m_instance t = some m) :
    Knows t (s.view a).cur := by
  have hlocal := h.known a
  rw [ha] at hlocal
  cases h.passed t m ht hm with
  | inl hk => exact hk.mono hlocal
  | inr hb =>
    obtain ⟨b,n,hb,hk⟩ := hb
    have hne : b ≠ a := fun he => by rw [he,ha] at hb; cases hb
    exact absurd (by rw [hb]; trivial) (h.alone (by rw [ha]; trivial) hne)

theorem create_inv (o : Orders) (τ : Type) : Inv o (create τ) := by
  have memory_zero {x : Place} {t : Nat} {m : Message Place Word}
      (hm : (create τ).memory x t = some m) : t = 0 := by
    by_contra ht
    simp [create,ht] at hm
  refine ⟨fun n t m hm => .inl (memory_zero hm),fun t m hm => ?_,Nat.zero_le 1,fun a => ?_,
    fun a => trivial,fun hone => absurd hone (by simp [create]),fun t m ht hm => ?_⟩
  · have ht := memory_zero hm
    subst ht
    have hv : m = { value := .null, view := fun _ => 0 } := (Option.some.inj hm).symm
    exact .inl ⟨rfl,by rw [hv]⟩
  · exact ⟨fun ho => absurd ho (by simp [create]),False.elim⟩
  · exact absurd (memory_zero hm) (by omega)

section
variable [DecidableEq τ]

@[simp] theorem move_point_self (s : Singleton τ) (a : τ) (p : Point) (v : ThreadView Place) :
    (s.move a p v).point a = p := Function.update_self _ _ _

@[simp] theorem move_view_self (s : Singleton τ) (a : τ) (p : Point) (v : ThreadView Place) :
    (s.move a p v).view a = v := Function.update_self _ _ _

theorem move_point_other (hne : b ≠ a) (s : Singleton τ) (p : Point) (v : ThreadView Place) :
    (s.move a p v).point b = s.point b := Function.update_of_ne hne _ _

theorem move_view_other (hne : b ≠ a) (s : Singleton τ) (p : Point) (v : ThreadView Place) :
    (s.move a p v).view b = s.view b := Function.update_of_ne hne _ _

theorem Inv.moved (h : Inv o s) (hle : (s.view a).cur ≤ v.cur)
    (hin : p.Inside ↔ (s.point a).Inside) (hlocal : Local o s v p)
    (hst : ∀ n, s.point a = .storing n → p = .storing n)
    (hun : ∀ n, s.point a = .unlocking n → p = .unlocking n) : Inv o (s.move a p v) := by
  refine ⟨h.objects,h.pointers,h.once,fun b => ?_,fun b => ?_,fun hone => ?_,fun t m ht hm => ?_⟩
  · by_cases hne : b = a
    · subst hne
      rw [move_point_self,hin]
      exact h.owner b
    · rw [move_point_other hne]
      exact h.owner b
  · by_cases hne : b = a
    · subst hne
      rw [move_point_self,move_view_self]
      exact hlocal
    · rw [move_point_other hne,move_view_other hne]
      exact h.known b
  · cases h.made hone with
    | inr hm => exact .inr hm
    | inl hb =>
      obtain ⟨b,hb⟩ := hb
      refine .inl ⟨b,?_⟩
      by_cases hne : b = a
      · subst hne
        rw [move_point_self,hst 0 hb]
      · rw [move_point_other hne,hb]
  · cases h.passed t m ht hm with
    | inl hk => exact .inl hk
    | inr hb =>
      obtain ⟨b,n,hb,hk⟩ := hb
      refine .inr ⟨b,n,?_⟩
      by_cases hne : b = a
      · subst hne
        rw [move_point_self,move_view_self]
        exact ⟨hun n hb,hk.mono hle⟩
      · rw [move_point_other hne,move_view_other hne]
        exact ⟨hb,hk⟩

theorem load_inv (h : Inv o s) (ha : s.point a = .outside) {t : Nat} {m : Message Place Word}
    (hr : Readable s.memory (s.view a) .m_instance t m) :
    Inv o (s.move a (afterLoad m.value) ((s.view a).load .m_instance t o.load m)) := by
  refine h.moved (load_cur _ _ _ _ _) ?_ ?_ (by simp [ha]) (by simp [ha])
  · rw [ha]
    cases m.value <;> exact Iff.rfl
  · obtain ⟨-,hv⟩ | ⟨-,hv,-,hview⟩ := h.pointers t m hr.1
    · rw [hv]
      trivial
    · rw [hv]
      exact ⟨rfl,fun ho => (hview ho.2).trans (load_view ho.1 _ _ _ _ _)⟩

theorem check_inv (h : Inv o s) (ha : s.point a = .checking) {t : Nat} {m : Message Place Word}
    (hr : Readable s.memory (s.view a) .m_instance t m) :
    Inv o (s.move a (afterCheck m.value) ((s.view a).load .m_instance t .relaxed m)) := by
  have hinside : (s.point a).Inside := by rw [ha]; trivial
  refine h.moved (load_cur _ _ _ _ _) ?_ ?_ (by simp [ha]) (by simp [ha])
  · rw [ha]
    cases m.value <;> exact Iff.rfl
  · obtain ⟨ht,hv⟩ | ⟨ht,hv,-,-⟩ := h.pointers t m hr.1
    · rw [hv]
      -- the null pointer is too old to be read once another has been stored
      change s.built = 0
      by_contra hb
      have hone : s.built = 1 := by have := h.once; omega
      cases h.made hone with
      | inl hb =>
        obtain ⟨b,hb⟩ := hb
        have hne : b ≠ a := fun he => by rw [he,ha] at hb; cases hb
        exact absurd (by rw [hb]; trivial) (h.alone hinside hne)
      | inr hm =>
        obtain ⟨u,m',hu,hm'⟩ := hm
        have hk := (h.stored_seen ha hu hm').1
        have := hr.2
        omega
    · rw [hv]
      exact ⟨rfl,(h.stored_seen ha ht hr.1).2.trans (load_cur _ _ _ _ _ _)⟩

theorem lock_inv (h : Inv o s) (ha : s.point a = .locking) (hf : s.owner = none) :
    Inv o { s.move a .checking ((s.view a).join s.mutexView) with owner := some a } := by
  have hout (b : τ) : ¬ (s.point b).Inside := fun hb => by
    rw [← h.owner b,hf] at hb
    cases hb
  refine ⟨h.objects,h.pointers,h.once,fun b => ?_,fun b => ?_,fun hone => ?_,fun t m ht hm => ?_⟩
  · by_cases hne : b = a
    · subst hne
      exact iff_of_true rfl (by rw [move_point_self]; trivial)
    · refine iff_of_false (fun he => hne (Option.some.inj he).symm) ?_
      rw [move_point_other hne]
      exact hout b
  · by_cases hne : b = a
    · subst hne
      rw [move_point_self,move_view_self]
      exact join_view _ _
    · rw [move_point_other hne,move_view_other hne]
      exact (h.known b).outside (hout b)
  · cases h.made hone with
    | inr hm => exact .inr hm
    | inl hb =>
      obtain ⟨b,hb⟩ := hb
      exact absurd (by rw [hb]; trivial) (hout b)
  · cases h.passed t m ht hm with
    | inl hk => exact .inl hk
    | inr hb =>
      obtain ⟨b,n,hb,-⟩ := hb
      exact absurd (by rw [hb]; trivial) (hout b)

theorem build_inv (h : Inv o s) (ha : s.point a = .building) :
    Inv o { s.move a (.storing s.built) ((s.view a).store (.object s.built) 1 .relaxed) with
      memory := s.memory.post (.object s.built) 1
        ((s.view a).stored (.object s.built) 1 .relaxed .constructed)
      built := s.built+1 } := by
  have hinside : (s.point a).Inside := by rw [ha]; trivial
  have hzero : s.built = 0 := by
    have hlocal := h.known a
    rwa [ha] at hlocal
  rw [hzero]
  have same {t : Nat} {m : Message Place Word} (hm : s.memory.post (.object 0) 1
      ((s.view a).stored (.object 0) 1 .relaxed .constructed) .m_instance t = some m) :
      s.memory .m_instance t = some m := by rwa [post_other (by simp)] at hm
  have early {t : Nat} {m : Message Place Word} (hm : s.memory .m_instance t = some m) :
      t = 0 ∧ m.value = .null := by
    cases h.pointers t m hm with
    | inl hp => exact hp
    | inr hp => exact absurd (hp.2.2.1.symm.trans hzero) (by decide)
  refine ⟨fun n t m hm => ?_,fun t m hm => .inl (early (same hm)),Nat.le_refl 1,fun b => ?_,
    fun b => ?_,fun _ => .inl ⟨a,?_⟩,fun t m ht hm => ?_⟩
  · obtain ⟨-,ht,hm⟩ | hm := post_cases hm
    · exact .inr ⟨ht,by rw [hm]; rfl⟩
    · exact h.objects n t m hm
  · by_cases hne : b = a
    · subst hne
      exact iff_of_true ((h.owner b).mpr hinside) (by dsimp only; rw [move_point_self]; trivial)
    · dsimp only
      rw [move_point_other hne]
      exact h.owner b
  · by_cases hne : b = a
    · subst hne
      dsimp only
      rw [move_point_self,move_view_self]
      exact ⟨rfl,rfl,store_self _ _ _ _,fun t m hm => (early (same hm)).1⟩
    · dsimp only
      rw [move_point_other hne,move_view_other hne]
      exact (h.known b).outside (h.alone hinside hne)
  · dsimp only
    rw [move_point_self]
  · have hzero := (early (same hm)).1
    omega

theorem store_inv (h : Inv o s) {t n : Nat} (ha : s.point a = .storing n)
    (hw : Writable s.memory (s.view a) .m_instance t) :
    Inv o { s.move a (.unlocking n) ((s.view a).store .m_instance t o.store) with
      memory := s.memory.post .m_instance t
        ((s.view a).stored .m_instance t o.store (.pointer n)) } := by
  have hinside : (s.point a).Inside := by rw [ha]; trivial
  have hlocal := h.known a
  rw [ha] at hlocal
  obtain ⟨hn,hone,hseen,hfirst⟩ := hlocal
  subst hn
  have htime : 0 < t := Nat.zero_lt_of_lt hw.2
  have hknows : Knows t ((s.view a).store .m_instance t o.store).cur :=
    ⟨store_self _ _ _ _,hseen.trans (store_cur _ _ _ _ _)⟩
  refine ⟨fun n u m hm => ?_,fun u m hm => ?_,h.once,fun b => ?_,fun b => ?_,fun _ => .inr ?_,
    fun u m hu hm => .inr ⟨a,0,?_,?_⟩⟩
  · dsimp only at hm
    rw [post_other (by simp)] at hm
    exact h.objects n u m hm
  · obtain ⟨-,hu,hm⟩ | hm := post_cases hm
    · subst hu hm
      exact .inr ⟨htime,rfl,hone,fun ho => hseen.trans (stored_view ho _ _ _ _ _)⟩
    · exact h.pointers u m hm
  · by_cases hne : b = a
    · subst hne
      exact iff_of_true ((h.owner b).mpr hinside) (by dsimp only; rw [move_point_self]; trivial)
    · dsimp only
      rw [move_point_other hne]
      exact h.owner b
  · by_cases hne : b = a
    · subst hne
      dsimp only
      rw [move_point_self,move_view_self]
      exact ⟨rfl,hknows.2⟩
    · dsimp only
      rw [move_point_other hne,move_view_other hne]
      exact (h.known b).outside (h.alone hinside hne)
  · exact ⟨t,_,htime,post_self _ _ _ _⟩
  · dsimp only
    rw [move_point_self]
  · obtain ⟨-,hu',-⟩ | hm := post_cases hm
    · dsimp only
      rw [move_view_self,hu']
      exact hknows
    · exact absurd (hfirst u m hm) (by omega)

theorem unlock_inv (h : Inv o s) {n : Nat} (ha : s.point a = .unlocking n) :
    Inv o { s.move a (.returned n) (s.view a) with
      owner := none
      mutexView := s.mutexView ⊔ (s.view a).cur } := by
  have hinside : (s.point a).Inside := by rw [ha]; trivial
  have hlocal := h.known a
  rw [ha] at hlocal
  refine ⟨h.objects,h.pointers,h.once,fun b => ?_,fun b => ?_,fun hone => ?_,fun t m ht hm => ?_⟩
  · refine iff_of_false (fun ho => by cases ho) ?_
    by_cases hne : b = a
    · subst hne
      dsimp only
      rw [move_point_self]
      exact id
    · dsimp only
      rw [move_point_other hne]
      exact h.alone hinside hne
  · by_cases hne : b = a
    · subst hne
      dsimp only
      rw [move_point_self,move_view_self]
      exact ⟨hlocal.1,fun _ => hlocal.2⟩
    · dsimp only
      rw [move_point_other hne,move_view_other hne]
      exact (h.known b).outside (h.alone hinside hne)
  · cases h.made hone with
    | inr hm => exact .inr hm
    | inl hb =>
      obtain ⟨b,hb⟩ := hb
      have hne : b ≠ a := fun he => by rw [he,ha] at hb; cases hb
      exact absurd (by rw [hb]; trivial) (h.alone hinside hne)
  · refine .inl ?_
    cases h.passed t m ht hm with
    | inl hk => exact hk.mono le_sup_left
    | inr hb =>
      obtain ⟨b,k,hb,hk⟩ := hb
      by_cases hne : b = a
      · subst hne
        exact hk.mono le_sup_right
      · exact absurd (by rw [hb]; trivial) (h.alone hinside hne)

theorem step_inv {e : Action τ} (h : Inv o s) (hs : Step o s e s') : Inv o s' := by
  cases hs with
  | load ha hr => exact load_inv h ha hr
  | lock ha hf => exact lock_inv h ha hf
  | check ha hr => exact check_inv h ha hr
  | build ha => exact build_inv h ha
  | store ha hw => exact store_inv h ha hw
  | unlock ha => exact unlock_inv h ha
  | again ha =>
    exact h.moved (le_refl _) (by rw [ha]; exact Iff.rfl) trivial (by simp [ha]) (by simp [ha])
  | observe a b =>
    exact h.moved (join_cur _ _) Iff.rfl ((h.known a).mono (join_cur _ _)) (fun _ => id)
      fun _ => id

theorem run_inv {es : List (Singleton τ×Action τ)} (hrun : Run (Step o) s es s') (h : Inv o s) :
    Inv o s' := by
  induction hrun with
  | nil s => exact h
  | cons hstep _ ih => exact ih (step_inv h hstep)

end

/-! What callers rely on. -/

theorem Inv.safe (h : Inv o s) (ho : Ordered o) : Safe s := by
  have one {a : τ} {n : Nat} (ha : s.point a = .returned n) : n = 0 ∧ 1 ≤ (s.view a).cur (.object 0) := by
    have hlocal := h.known a
    rw [ha] at hlocal
    exact ⟨hlocal.1,hlocal.2 ho⟩
  refine ⟨h.once,fun a b m n ha hb => (one ha).1.trans (one hb).1.symm,fun a n t m ha hr => ?_⟩
  obtain ⟨hn,hseen⟩ := one ha
  subst hn
  cases h.objects 0 t m hr.1 with
  | inl ht =>
    have hle := hr.2
    omega
  | inr ht => exact ht.2

structure Solo (a b : τ) (p : Point) (s : Singleton τ) : Prop where
  point : s.point a = p
  other : s.point b = .outside
  view : s.view b = (create τ).view b
  rel : (s.view a).rel = fun _ => 0
  cur : (s.view a).cur .m_instance = 0
  mutex : s.mutexView = fun _ => 0
  pointers : s.memory .m_instance = (create τ).memory .m_instance
  blank : s.memory (.object 0) 0 = (create τ).memory (.object 0) 0

def nothing : Message Place Word where
  value := .null
  view := fun _ => 0

theorem Solo.readable (h : Solo a b p s) : Readable s.memory (s.view a) .m_instance 0 nothing :=
  ⟨by rw [h.pointers]; rfl,by rw [h.cur]⟩

theorem create_solo (a b : τ) : Solo a b .outside (create τ) := ⟨rfl,rfl,rfl,rfl,rfl,rfl,rfl,rfl⟩

section
variable [DecidableEq τ]

theorem Solo.move (h : Solo a b p s) (hab : a ≠ b) (q : Point) (hrel : v.rel = fun _ => 0)
    (hcur : v.cur .m_instance = 0) : Solo a b q (s.move a q v) where
  point := move_point_self _ _ _ _
  other := (move_point_other hab.symm _ _ _).trans h.other
  view := (move_view_other hab.symm _ _ _).trans h.view
  rel := by rw [move_view_self]; exact hrel
  cur := by rw [move_view_self]; exact hcur
  mutex := h.mutex
  pointers := h.pointers
  blank := h.blank

theorem solo_load (o : Orders) (hab : a ≠ b) :
    ∃ s, Step o (create τ) (.load a) s ∧ Solo a b .locking s ∧ s.owner = none ∧ s.built = 0 := by
  have h := create_solo a b
  refine ⟨_,.load rfl h.readable,h.move hab .locking ?_ ?_,rfl,rfl⟩
  · cases o.load <;> rfl
  · cases o.load <;> rfl

theorem solo_lock (o : Orders) (hab : a ≠ b) (h : Solo a b .locking s) (hf : s.owner = none) :
    ∃ t, Step o s (.lock a) t ∧ Solo a b .checking t ∧ t.built = s.built := by
  have hcur : ((s.view a).join s.mutexView).cur .m_instance = 0 := by
    rw [h.mutex]
    exact (Nat.max_zero _).trans h.cur
  have hmove := h.move hab .checking (v := (s.view a).join s.mutexView) h.rel hcur
  exact ⟨_,.lock h.point hf,{ hmove with },rfl⟩

theorem solo_check (o : Orders) (hab : a ≠ b) (h : Solo a b .checking s) :
    ∃ t, Step o s (.check a) t ∧ Solo a b .building t ∧ t.built = s.built := by
  refine ⟨_,.check h.point h.readable,h.move hab .building h.rel ?_,rfl⟩
  simp [ThreadView.load,ThreadView.read,h.cur]

theorem solo_build (o : Orders) (hab : a ≠ b) (h : Solo a b .building s) (hb : s.built = 0) :
    ∃ t, Step o s (.build a) t ∧ Solo a b (.storing 0) t := by
  have hcur : ((s.view a).store (.object s.built) 1 .relaxed).cur .m_instance = 0 := by
    simp [ThreadView.store,ThreadView.beforeStore,ThreadView.write,seen_other,h.cur]
  have hmove := h.move hab (.storing s.built) (v := (s.view a).store (.object s.built) 1 .relaxed)
    h.rel hcur
  refine ⟨_,.build h.point,{ hmove with point := ?_, pointers := ?_, blank := ?_ }⟩
  · rw [← hb]
    exact hmove.point
  · rw [← h.pointers]
    funext t
    dsimp only
    exact post_other (by simp)
  · rw [← h.blank]
    dsimp only
    exact post_other (by simp)

theorem solo_store (o : Orders) (hab : a ≠ b) (h : Solo a b (.storing 0) s) :
    ∃ t m, Step o s (.store a) t ∧ t.point b = .outside ∧ t.view b = (create τ).view b ∧
      t.memory .m_instance 1 = some m ∧ m.value = .pointer 0 ∧
      (o.store = .relaxed → m.view (.object 0) = 0) ∧
      t.memory (.object 0) 0 = (create τ).memory (.object 0) 0 := by
  have hw : Writable s.memory (s.view a) .m_instance 1 :=
    ⟨by rw [h.pointers]; rfl,by rw [h.cur]; decide⟩
  refine ⟨_,(s.view a).stored .m_instance 1 o.store (.pointer 0),.store h.point hw,?_,?_,?_,rfl,
    fun ho => ?_,?_⟩
  · dsimp only
    rw [move_point_other hab.symm,h.other]
  · dsimp only
    rw [move_view_other hab.symm,h.view]
  · dsimp only
    exact post_self _ _ _ _
  · rw [ho,stored_relaxed (by simp),h.rel]
  · rw [← h.blank]
    dsimp only
    exact post_other (by simp)

theorem unordered_unsafe (hab : a ≠ b) (ho : ¬ Ordered o) :
    ∃ es s, Run (Step o) (create τ) es s ∧ ¬ Safe s := by
  obtain ⟨s1,hs1,h1,hf,hb⟩ := solo_load o hab
  obtain ⟨s2,hs2,h2,hb2⟩ := solo_lock o hab h1 hf
  obtain ⟨s3,hs3,h3,hb3⟩ := solo_check o hab h2
  obtain ⟨s4,hs4,h4⟩ := solo_build o hab h3 (by rw [hb3,hb2,hb])
  obtain ⟨s5,m,hs5,hpoint,hview,hm,hv,hrel,hblank⟩ := solo_store o hab h4
  have hread : Readable s5.memory (s5.view b) .m_instance 1 m := ⟨hm,by rw [hview]; exact Nat.zero_le 1⟩
  have hload : Step o s5 (.load b) _ := .load hpoint hread
  refine ⟨_,_,.cons hs1 (.cons hs2 (.cons hs3 (.cons hs4 (.cons hs5 (.cons hload (.nil _)))))),
    fun hs => ?_⟩
  have hunseen : ((s5.view b).load .m_instance 1 o.load m).cur (.object 0) = 0 := by
    rw [hview]
    by_cases hl : o.load = .relaxed
    · rw [hl]
      exact load_relaxed (by simp) _ _ _
    · have hs : o.store = .relaxed := by
        by_contra hs
        exact ho ⟨hl,hs⟩
      have hzero := hrel hs
      cases o.load <;>
        simp [ThreadView.load,ThreadView.read,ThreadView.acquireFence,create,seen_other,hzero]
  have hbad := hs.constructed b 0 0 { value := .blank, view := fun _ => 0 }
    (by rw [move_point_self,hv]; rfl) ⟨hblank,by rw [move_view_self,hunseen]⟩
  cases hbad

/-- In every run of every number of threads, whatever else passes between them, `new` is executed
once, all callers get the same object, and none of them can read what was there before its
constructor. So it is with the orders of either variant, and as soon as there are two threads
with others exactly if the first load and the store are ordered, by themselves or by a fence. -/
theorem getInstance_safe_iff (τ : Type) [DecidableEq τ] :
    (∀ es s, Run (Step .learn_from_csdn) (create τ) es s → Safe s) ∧
    (∀ es s, Run (Step .use_memory_barrier) (create τ) es s → Safe s) ∧
    ∀ a b : τ, a ≠ b → ∀ o, (∀ es s, Run (Step o) (create τ) es s → Safe s) ↔
      o.load ≠ .relaxed ∧ o.store ≠ .relaxed := by
  have safe (o : Orders) (ho : Ordered o) (es : List (Singleton τ×Action τ)) (s : Singleton τ)
      (hrun : Run (Step o) (create τ) es s) : Safe s := (run_inv hrun (create_inv o τ)).safe ho
  refine ⟨safe _ ⟨by decide,by decide⟩,safe _ ⟨by decide,by decide⟩,fun a b hab o =>
    ⟨fun h => ?_,safe o⟩⟩
  by_contra ho
  obtain ⟨es,s,hrun,hs⟩ := unordered_unsafe hab ho
  exact hs (h es s hrun)

theorem getInstance_safe_iff_two :
    (∀ es s, Run (Step .learn_from_csdn) (create Unit) es s → Safe s) ∧
    ∀ o, (∀ es s, Run (Step o) (create Bool) es s → Safe s) ↔
      o.load ≠ .relaxed ∧ o.store ≠ .relaxed :=
  ⟨(getInstance_safe_iff Unit).1,(getInstance_safe_iff Bool).2.2 false true (by decide)⟩

end

end Singleton
end AdlServer.Base
