import AdlServer.BufferGrowth
import AdlServer.BufferRefinement

/-! Growing up to the limit of an `int`: the doubling that would suffice may be one that
`alloc_` cannot hold. -/
namespace AdlServer.Net
open Program Memory Cpp
namespace NetBuffer
variable {b c : NetBuffer} {len : Int}

/-- What is always so. `retrieve` takes a negative length, so `r_` may be negative. -/
structure Sound (b : NetBuffer) : Prop where
  w_nonneg : 0 ≤ b.w
  r_le : b.r ≤ b.w
  alloc_pos : 0 < b.alloc
  alloc_lt : b.alloc < 2^31
  owned : b.alloc = b.size

theorem Sound.readable_nonneg (h : b.Sound) : 0 ≤ b.readable := by
  have := h.r_le
  rw [readable]
  omega

theorem create_sound {initSize : Int} (h : 1 ≤ initSize) (h' : initSize < 2^31) (memory : Mem) :
    (create initSize memory).Sound := ⟨Int.le_refl 0,Int.le_refl 0,h,h',rfl⟩

theorem Sound.retrieveAll (h : b.Sound) : b.retrieveAll.Sound :=
  ⟨Int.le_refl 0,Int.le_refl 0,h.alloc_pos,h.alloc_lt,h.owned⟩

theorem Sound.retrieveAll_holds (h : b.Sound) : b.retrieveAll.Holds [] :=
  ⟨⟨⟨Int.le_refl 0,Int.le_refl 0,Int.le_of_lt h.alloc_pos,h.alloc_pos,h.owned⟩,h.alloc_pos⟩,
    slice_self _ _⟩

theorem retrieve_sound (h : b.Sound) (hc : (b.retrieve len).Returns c) : c.Sound := by
  obtain ⟨u,hu,hc⟩ := (Prog.returns_bind _ _ _).mp hc
  have hle := (ensures_check (c := len ≤ b.readable) (E := fun _ => True) .retrieve
    fun _ => trivial).result hu
  cases (Prog.returns_pure _ _).mp hc
  rw [readable] at hle
  exact ⟨h.w_nonneg,by dsimp only; omega,h.alloc_pos,h.alloc_lt,h.owned⟩

theorem expansion_sound (h : b.Sound) (hlen : 0 ≤ len) (hc : (b.expansion len).Returns c) :
    c.Sound ∧ len < c.writeable := by
  rw [expansion_eq] at hc
  obtain ⟨alloc,ha,hc⟩ := (Prog.returns_bind _ _ _).mp hc
  have hroom := (doubling_ensures b.w len b.alloc).result ha
  obtain ⟨k,hk,_⟩ := (growLoop_ensures b.w len b.alloc).result ha
  have hlt : alloc < 2^31 := by
    cases k with
    | zero =>
      rw [hk]
      exact h.alloc_lt
    | succ k =>
      rw [hk,Function.iterate_succ_apply']
      exact wrapInt_lt _
  cases (Prog.returns_pure _ _).mp hc
  have hw := h.w_nonneg
  exact ⟨⟨hw,h.r_le,by dsimp only; omega,hlt,rfl⟩,hroom⟩

theorem moveToLeft_sound (h : b.Sound) (hc : b.moveToLeft.Returns c) : c.Sound := by
  rw [moveToLeft] at hc
  by_cases hm : b.checkCanMoveToLeft
  · rw [if_pos hm] at hc
    obtain ⟨u,_,hc⟩ := (Prog.returns_bind _ _ _).mp hc
    cases (Prog.returns_pure _ _).mp hc
    have hle := h.readable_nonneg
    exact ⟨hle,hle,h.alloc_pos,h.alloc_lt,h.owned⟩
  · rw [if_neg hm] at hc
    cases (Prog.returns_pure _ _).mp hc
    exact h

theorem checkCapcity_sound (h : b.Sound) (hlen : 0 ≤ len) (hc : (b.checkCapcity len).Returns c) :
    c.Sound ∧ len < c.writeable := by
  rw [checkCapcity] at hc
  split_ifs at hc with hfit
  · obtain ⟨d,hd,hc⟩ := (Prog.returns_bind _ _ _).mp hc
    have hsound := moveToLeft_sound h hd
    split_ifs at hc with hfit'
    · exact expansion_sound hsound hlen hc
    · cases (Prog.returns_pure _ _).mp hc
      exact ⟨hsound,Int.not_le.mp hfit'⟩
  · cases (Prog.returns_pure _ _).mp hc
    exact ⟨h,Int.not_le.mp hfit⟩

theorem store_sound (h : b.Sound) {s : Bytes} (hc : (b.store s).Returns c) :
    c.Sound ∧ c.writeable = b.writeable-s.length := by
  induction s generalizing b with
  | nil =>
    cases (Prog.returns_pure _ _).mp hc
    exact ⟨h,by simp⟩
  | cons a s ih =>
    obtain ⟨u,_,hc⟩ := (Prog.returns_bind _ _ _).mp hc
    have hw := h.w_nonneg
    have hr := h.r_le
    obtain ⟨hs,hroom⟩ := ih (b := { b with buf := poke b.buf b.w a, w := b.w+1 })
      ⟨by dsimp only; omega,by dsimp only; omega,h.alloc_pos,h.alloc_lt,h.owned⟩ hc
    refine ⟨hs,?_⟩
    rw [hroom,writeable,writeable,List.length_cons]
    dsimp only
    omega

structure Ready (b : NetBuffer) : Prop extends Sound b where
  w_lt : b.w < b.alloc

theorem Sound.ready (h : b.Sound) (hroom : 0 < b.writeable) : b.Ready := by
  rw [writeable] at hroom
  exact ⟨h,by omega⟩

theorem checkSmall_ready (h : b.Sound) (hc : b.checkSmall.Returns c) : c.Ready := by
  rw [checkSmall] at hc
  split_ifs at hc with hsmall
  · obtain ⟨hs,hroom⟩ := checkCapcity_sound h (by decide) hc
    exact hs.ready (by omega)
  · cases (Prog.returns_pure _ _).mp hc
    have := h.alloc_pos
    exact h.ready (by omega)

theorem append_ready (h : b.Sound) {s : Bytes} (hc : (b.append s).Returns c) : c.Ready := by
  obtain ⟨d,hd,hc⟩ := (Prog.returns_bind _ _ _).mp hc
  obtain ⟨hs,hroom⟩ := checkCapcity_sound h (Int.natCast_nonneg _) hd
  obtain ⟨hs',hroom'⟩ := store_sound hs hc
  exact hs'.ready (by omega)

theorem retrieve_ready (h : b.Ready) (hc : (b.retrieve len).Returns c) : c.Ready := by
  refine ⟨retrieve_sound h.toSound hc,?_⟩
  obtain ⟨u,_,hc⟩ := (Prog.returns_bind _ _ _).mp hc
  cases (Prog.returns_pure _ _).mp hc
  exact h.w_lt

theorem readTurn_ready {offset : Int} {s : ReadState Socket} (h : s.buffer.Ready) :
    Prog.Ensures (readTurn Socket.read offset s)
      (Prog.Kept (fun s => s.buffer.Ready) fun r => r.2.2.Ready) fun _ => True := by
  rw [readTurn]
  generalize Socket.read s.source s.buffer.writeable
    (if 0 < offset then some (offset+s.getSize) else none) = answer
  obtain ⟨source,answer⟩ := answer
  cases answer with
  | fail e => cases e <;> exact Prog.ensures_pure h
  | bytes got =>
    cases got with
    | nil => exact Prog.ensures_pure h
    | cons a got =>
      intro o ho
      cases o with
      | error e => exact trivial
      | ok t =>
        obtain ⟨d,hd,ho⟩ := (Prog.returns_bind _ _ _).mp ho
        obtain ⟨e,he,ho⟩ := (Prog.returns_bind _ _ _).mp ho
        cases (Prog.returns_pure _ _).mp ho
        exact checkSmall_ready (store_sound h.toSound hd).1 he

theorem readFd_ready {socket socket' : Socket} {ret : ReadReturn} {offset : Int} (h : b.Ready)
    (hc : (readFd Socket.read socket b offset).Returns (ret,socket',c)) : c.Ready :=
  (Prog.ensures_loop (fun s : ReadState Socket => s.buffer.Ready)
    (fun _ hs => readTurn_ready hs) { source := socket, buffer := b } h).result hc

/-- What a buffer of some size can come to be by its operations, each called as it may be
called in the source: `retrieve` asserts an upper bound only. -/
inductive Reachable : NetBuffer → Prop where
  | create {initSize : Int} {memory : Mem} (h : 1 ≤ initSize) (h' : initSize < 2^31) :
    Reachable (create initSize memory)
  | apply {b b' : NetBuffer} {op : BufferOp} {out : Output} (h : Reachable b)
    (hb : (op.apply b).Returns (out,b')) : Reachable b'
  | checkCapcity {b b' : NetBuffer} {len : Int} (h : Reachable b) (hlen : 0 ≤ len)
    (hb : (b.checkCapcity len).Returns b') : Reachable b'

theorem apply_ready {op : BufferOp} {out : Output} (h : b.Ready)
    (hc : (op.apply b).Returns (out,c)) : c.Ready := by
  have string {n : Nat} {s : Bytes} {d : NetBuffer} (hd : (b.retrieveAsString n).Returns (s,d)) :
      d.Ready := by
    obtain ⟨u,_,hd⟩ := (Prog.returns_bind _ _ _).mp hd
    obtain ⟨e,he,hd⟩ := (Prog.returns_bind _ _ _).mp hd
    cases (Prog.returns_pure _ _).mp hd
    exact retrieve_ready h he
  cases op with
  | append s =>
    obtain ⟨d,hd,hc⟩ := (Prog.returns_bind _ _ _).mp hc
    cases (Prog.returns_pure _ _).mp hc
    exact append_ready h.toSound hd
  | retrieve len =>
    obtain ⟨d,hd,hc⟩ := (Prog.returns_bind _ _ _).mp hc
    cases (Prog.returns_pure _ _).mp hc
    exact retrieve_ready h hd
  | retrieveAsString n | retrieveAllAsString =>
    obtain ⟨⟨s,d⟩,hd,hc⟩ := (Prog.returns_bind _ _ _).mp hc
    cases (Prog.returns_pure _ _).mp hc
    exact string hd
  | retrieveAll | reset =>
    cases (Prog.returns_pure _ _).mp hc
    exact ⟨h.toSound.retrieveAll,h.alloc_pos⟩
  | readFd answers =>
    obtain ⟨⟨ret,socket,d⟩,hd,hc⟩ := (Prog.returns_bind _ _ _).mp hc
    cases (Prog.returns_pure _ _).mp hc
    exact readFd_ready h hd

theorem Reachable.ready (h : Reachable b) : b.Ready := by
  induction h with
  | create h h' => exact ⟨create_sound h h' _,h⟩
  | apply h hb ih => exact apply_ready ih hb
  | checkCapcity h hlen hb ih =>
    obtain ⟨hs,hroom⟩ := checkCapcity_sound ih.toSound hlen hb
    exact hs.ready (by omega)

/-! The same in arithmetic that breaks off where an `int` overflows. -/

inductive Trap where
  | overflow
  | fault (e : Fault)
  deriving DecidableEq, Repr

def int (x : Int) : Prog Trap Int :=
  if -2^31 ≤ x ∧ x < 2^31 then pure x else Prog.throw .overflow

theorem int_of_range {x : Int} (h : -2^31 ≤ x) (h' : x < 2^31) : int x = pure x := if_pos ⟨h,h'⟩

theorem int_returns {x y : Int} (h : (int x).Returns y) : y = x ∧ -2^31 ≤ x ∧ x < 2^31 := by
  rw [int] at h
  split_ifs at h with hx
  · exact ⟨(Prog.returns_pure _ _).mp h,hx⟩
  · exact absurd h (Prog.not_returns_throw _ _)

def doublingTurn (w len alloc : Int) : Prog Trap (Turn Int Int) := do
  let writeable ← int (alloc-w)
  if writeable ≤ len then do
    let alloc ← int (alloc*2)
    pure (.again alloc)
  else pure (.leave alloc)

def expansionInt (b : NetBuffer) (len : Int) : Prog Trap NetBuffer := do
  let alloc ← Prog.loop (doublingTurn b.w len) b.alloc
  pure { b with alloc := alloc, size := alloc }

def moveToLeftInt (b : NetBuffer) : Prog Trap NetBuffer :=
  if b.checkCanMoveToLeft then do
    let readable ← int (b.w-b.r)
    if 0 ≤ readable ∧ b.w ≤ b.size then
      pure { b with buf := memmove b.buf 0 b.r readable, w := readable, r := 0 }
    else Prog.throw (.fault .overrun)
  else pure b

def checkCapcityInt (b : NetBuffer) (len : Int) : Prog Trap NetBuffer := do
  let writeable ← int (b.alloc-b.w)
  if writeable ≤ len then do
    let b ← b.moveToLeftInt
    let writeable ← int (b.alloc-b.w)
    if writeable ≤ len then b.expansionInt len else pure b
  else pure b

section
variable {w alloc a : Int} {k : Nat}

theorem doublingTurn_returns {t : Turn Int Int} (h : (doublingTurn w len a).Returns t) :
    (growTurn w len a).Returns t ∧
      ((t = .again (a*2) ∧ a*2 < 2^31) ∨ (t = .leave a ∧ len < a-w)) := by
  obtain ⟨room,hroom,h⟩ := (Prog.returns_bind _ _ _).mp h
  cases (int_returns hroom).1
  rw [growTurn]
  split_ifs at h with hle
  · obtain ⟨twice,htwice,h⟩ := (Prog.returns_bind _ _ _).mp h
    obtain ⟨rfl,hlow,hhigh⟩ := int_returns htwice
    cases (Prog.returns_pure _ _).mp h
    rw [if_pos hle,double,wrapInt_of_range hlow hhigh]
    exact ⟨Prog.returns_self _,.inl ⟨rfl,hhigh⟩⟩
  · cases (Prog.returns_pure _ _).mp h
    rw [if_neg hle]
    exact ⟨Prog.returns_self _,.inr ⟨rfl,Int.not_le.mp hle⟩⟩

theorem doubling_returns (ha : alloc < 2^31)
    (h : (Prog.loop (doublingTurn w len) alloc).Returns a) :
    (Prog.loop (growTurn w len) alloc).Returns a ∧ len < a-w ∧
      ∃ k : Nat, a = alloc*2^k ∧ a < 2^31 := by
  have hens : Prog.Ensures (Prog.loop (doublingTurn w len) alloc)
      (fun a => (Prog.loop (growTurn w len) alloc).Returns a ∧ len < a-w ∧
        ∃ k : Nat, a = alloc*2^k ∧ a < 2^31) fun _ => True := by
    refine Prog.ensures_loop (fun a => (∀ o, (Prog.loop (growTurn w len) a).Ends o →
      (Prog.loop (growTurn w len) alloc).Ends o) ∧ ∃ k : Nat, a = alloc*2^k ∧ a < 2^31) ?_ alloc
      ⟨fun _ => id,0,by simp,ha⟩
    intro a hinv o ho
    obtain ⟨hsame,k,hk,hlt⟩ := hinv
    cases o with
    | error e => exact trivial
    | ok t =>
      obtain ⟨hturn,hcase⟩ := doublingTurn_returns ho
      cases hcase with
      | inl hagain =>
        obtain ⟨rfl,hfit⟩ := hagain
        refine ⟨fun o ho => hsame o ((Prog.ends_loop_again _ hturn o).mpr ho),k+1,?_,hfit⟩
        rw [hk,Int.pow_succ,Int.mul_assoc]
      | inr hleave =>
        obtain ⟨rfl,hroom⟩ := hleave
        exact ⟨hsame _ (Prog.returns_loop_leave hturn),hroom,k,hk,hlt⟩
  exact hens.result h

theorem doubling_halts (hw : 0 ≤ w) (hw' : w < 2^31) (ha : 0 < alloc)
    (h : w+len < alloc*2^k) (h' : alloc*2^k < 2^31) :
    ∃ a, (Prog.loop (doublingTurn w len) alloc).Returns a := by
  induction k generalizing alloc with
  | zero =>
    rw [pow_zero,Int.mul_one] at h h'
    refine ⟨alloc,Prog.returns_loop_leave ?_⟩
    rw [doublingTurn,int_of_range (by omega) (by omega),Prog.returns_pure_bind,if_neg (by omega)]
    exact Prog.returns_self _
  | succ k ih =>
    have hpow : (0:Int) < 2^k := by positivity
    have htwice : alloc*2 ≤ alloc*2^(k+1) := by
      rw [Int.pow_succ]
      nlinarith
    by_cases hle : alloc-w ≤ len
    · have hnext : alloc*2*2^k = alloc*2^(k+1) := by
        rw [Int.pow_succ]
        ring
      have hpos : 0 < alloc*2 := by omega
      obtain ⟨a,hret⟩ := ih hpos (by rwa [hnext]) (by rwa [hnext])
      refine ⟨a,(Prog.ends_loop_again (alloc*2) ?_ _).mpr hret⟩
      rw [doublingTurn,int_of_range (by omega) (by omega),Prog.returns_pure_bind,if_pos hle,
        int_of_range (by omega) (by omega),Prog.returns_pure_bind]
      exact Prog.returns_self _
    · refine ⟨alloc,Prog.returns_loop_leave ?_⟩
      rw [doublingTurn,int_of_range (by omega) (by omega),Prog.returns_pure_bind,if_neg hle]
      exact Prog.returns_self _

end

theorem moveToLeftInt_returns (h : b.Ready) (hr : b.readable < 2^31) :
    ∃ c, b.moveToLeft.Returns c ∧ b.moveToLeftInt.Returns c ∧ c.Sound ∧ c.w = min b.w b.readable ∧
      c.alloc = b.alloc ∧ c.contents = b.contents := by
  have hw := h.w_lt
  have hle := h.r_le
  have howned := h.owned
  rw [readable] at hr
  by_cases hm : 0 < b.r
  · have hin : b.InBounds :=
      ⟨Int.le_of_lt hm,hle,Int.le_of_lt hw,h.alloc_pos,howned⟩
    obtain ⟨c,hc,hcin,he,hc0⟩ := moveToLeft_returns hin
    refine ⟨c,hc,?_,moveToLeft_sound h.toSound hc,?_,moveToLeft_alloc hc,he⟩
    · rw [moveToLeft,if_pos (by simpa [checkCanMoveToLeft] using hm),inside_pos (by omega),
        Prog.returns_pure_bind,Prog.returns_pure] at hc
      rw [moveToLeftInt,if_pos (by simpa [checkCanMoveToLeft] using hm),
        int_of_range (by omega) (by omega),Prog.returns_pure_bind,if_pos (by omega),hc]
      exact Prog.returns_self _
    · rw [moveToLeft_w hin hcin he hc0,readable]
      omega
  · refine ⟨b,?_,?_,h.toSound,?_,rfl,rfl⟩
    · rw [moveToLeft,if_neg (by simpa [checkCanMoveToLeft] using hm)]
      exact Prog.returns_self b
    · rw [moveToLeftInt,if_neg (by simpa [checkCanMoveToLeft] using hm)]
      exact Prog.returns_self b
    · rw [readable]
      omega

/-- `checkCapcity` returns, nothing has overflowed on the way, and it leaves what it should. -/
def GrowsSafely (b : NetBuffer) (len : Int) : Prop :=
  ∃ c, (b.checkCapcity len).Returns c ∧ (b.checkCapcityInt len).Returns c ∧ 0 < c.alloc ∧
    len < c.writeable ∧ c.contents = b.contents

theorem expansionInt_iff (h : b.Sound) (hw : b.w < 2^31) (hlen : 0 ≤ len) :
    (∃ c, (b.expansion len).Returns c ∧ (b.expansionInt len).Returns c ∧ 0 < c.alloc ∧
      len < c.writeable ∧ c.contents = b.contents) ↔
    ∃ k : Nat, b.w+len < b.alloc*2^k ∧ b.alloc*2^k < 2^31 := by
  constructor
  · intro hgrown
    obtain ⟨c,_,hc,_⟩ := hgrown
    obtain ⟨a,ha,_⟩ := (Prog.returns_bind _ _ _).mp hc
    obtain ⟨_,hroom,k,hk,hlt⟩ := doubling_returns h.alloc_lt ha
    rw [hk] at hroom hlt
    exact ⟨k,by omega,hlt⟩
  · intro hfit
    obtain ⟨k,hk,hlt⟩ := hfit
    have hw0 := h.w_nonneg
    obtain ⟨a,ha⟩ := doubling_halts hw0 hw h.alloc_pos hk hlt
    obtain ⟨hagrees,hroom,_⟩ := doubling_returns h.alloc_lt ha
    refine ⟨{ b with alloc := a, size := a },?_,ha.bind (Prog.returns_self _),?_,hroom,rfl⟩
    · rw [expansion_eq]
      exact hagrees.bind (Prog.returns_self _)
    · dsimp only
      omega

theorem growsSafely_iff (hready : b.Ready) (hlen : 0 ≤ len) (hsum : b.readable+len < 2^31-1) :
    GrowsSafely b len ↔
      ∃ k : Nat, min b.w b.readable+len < b.alloc*2^k ∧ b.alloc*2^k < 2^31 := by
  have hw0 := hready.w_nonneg
  have hlt := hready.alloc_lt
  have hw := hready.w_lt
  have hpos := hready.alloc_pos
  have hroom : int (b.alloc-b.w) = pure b.writeable := int_of_range (by omega) (by omega)
  rw [GrowsSafely,checkCapcity,checkCapcityInt,hroom,Prog.pure_bind]
  by_cases hfit : b.writeable ≤ len
  · rw [if_pos hfit,if_pos hfit]
    obtain ⟨c,hc,hc',hsound,hcw,hca,he⟩ := moveToLeftInt_returns hready (by omega)
    have hroom' : int (c.alloc-c.w) = pure c.writeable := by
      have := hsound.w_nonneg
      exact int_of_range (by omega) (by omega)
    rw [← hcw,← hca,← he]
    simp only [Prog.Returns,hc.ends_bind,hc'.ends_bind,hroom',Prog.pure_bind]
    by_cases hfit' : c.writeable ≤ len
    · rw [if_pos hfit',if_pos hfit']
      exact expansionInt_iff hsound (by omega) hlen
    · rw [if_neg hfit',if_neg hfit']
      rw [writeable] at hfit'
      refine iff_of_true ⟨c,Prog.returns_self c,Prog.returns_self c,hsound.alloc_pos,?_,rfl⟩
        ⟨0,by omega,by omega⟩
      rw [writeable]
      omega
  · rw [if_neg hfit,if_neg hfit]
    rw [writeable] at hfit
    refine iff_of_true ⟨b,Prog.returns_self b,Prog.returns_self b,hpos,?_,rfl⟩
      ⟨0,by omega,by omega⟩
    rw [writeable]
    omega

/-- Growth is safe exactly if some doubling of `alloc_` that is still an `int` has room for more
than what is unread and `len`. -/
theorem checkCapcity_safe_iff (b : NetBuffer) (len : Int) (h : Reachable b) (hlen : 0 ≤ len)
    (hsum : b.readable+len < 2^31-1) :
    GrowsSafely b len ↔
      ∃ k : Nat, min b.w b.readable+len < b.alloc*2^k ∧ b.alloc*2^k < 2^31 :=
  growsSafely_iff h.ready hlen hsum

def ofPage : NetBuffer := create 4096 fun _ => 0

theorem ofPage_reachable : Reachable ofPage := .create (by decide) (by decide)

theorem half_overflows : ¬ ∀ (b : NetBuffer) (len : Int), Reachable b → 0 ≤ len →
    b.readable+len < 2^31-1 → GrowsSafely b len := by
  intro h
  have hsafe := h ofPage (2^30) ofPage_reachable (by decide) (by decide)
  obtain ⟨k,hk,hlt⟩ := (growsSafely_iff ofPage_reachable.ready (by decide) (by decide)).mp hsafe
  have hneeded : (2:Int)^30 < 4096*2^k := hk
  have hfits : (4096:Int)*2^k < 2^31 := hlt
  by_cases hle : k ≤ 18
  · have hpow : (2:Int)^k ≤ 2^18 := pow_le_pow_right₀ (by decide) hle
    omega
  · have hpow : (2:Int)^19 ≤ 2^k := pow_le_pow_right₀ (by decide) (by omega)
    omega

theorem checkCapcity_safe_iff_ofPage :
    GrowsSafely ofPage 5000 ↔
      ∃ k : Nat, min ofPage.w ofPage.readable+5000 < ofPage.alloc*2^k ∧ ofPage.alloc*2^k < 2^31 :=
  checkCapcity_safe_iff ofPage 5000 ofPage_reachable (by decide) (by decide)

end NetBuffer
end AdlServer.Net
