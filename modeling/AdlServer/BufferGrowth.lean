import AdlServer.NetBuffer

/-! When making room comes to an end. `expansion` doubles `alloc_`, an `int`, until it
suffices; doubling can miss what is needed, and then it wraps and never gets there. -/
namespace AdlServer.Net
open Program Memory Cpp
namespace NetBuffer

def double (alloc : Int) : Int := wrapInt (alloc*2)

/-- Some doubling of `alloc` has room for `readable` bytes and 4096 more. -/
def Growable (alloc readable : Int) : Prop := ∃ k : Nat, readable+4096 < double^[k] alloc

variable {b : NetBuffer} {alloc n m : Int}

theorem Growable.mono (h : Growable alloc n) (hle : m ≤ n) : Growable alloc m := by
  obtain ⟨k,hk⟩ := h
  exact ⟨k,by omega⟩

theorem Growable.of_iterate {k : Nat} (h : Growable (double^[k] alloc) n) : Growable alloc n := by
  obtain ⟨j,hj⟩ := h
  rw [← Function.iterate_add_apply] at hj
  exact ⟨j+k,hj⟩

theorem Growable.iterate {k : Nat} (h : Growable alloc n)
    (hk : ∀ j < k, double^[j] alloc ≤ n+4096) : Growable (double^[k] alloc) n := by
  obtain ⟨i,hi⟩ := h
  have hki : k ≤ i := by
    by_contra hlt
    have := hk i (by omega)
    omega
  refine ⟨i-k,?_⟩
  rwa [← Function.iterate_add_apply,Nat.sub_add_cancel hki]

theorem growable_of_small (h : 0 < alloc) (hsmall : n+4096 < 2^30) : Growable alloc n := by
  generalize hd : (n+4096+1-alloc).toNat = d
  induction d using Nat.strongRecOn generalizing alloc with
  | ind d ih =>
    by_cases hlt : n+4096 < alloc
    · exact ⟨0,hlt⟩
    · have htwice : double alloc = alloc*2 := wrapInt_of_range (by omega) (by omega)
      have hgrow : Growable (double^[1] alloc) n := by
        rw [Function.iterate_one,htwice]
        exact ih (n+4096+1-alloc*2).toNat (by omega) (by omega) rfl
      exact hgrow.of_iterate

/-- The loop of `expansion`. -/
def growTurn (w len alloc : Int) : Prog Fault (Turn Int Int) :=
  pure (if alloc-w ≤ len then .again (double alloc) else .leave alloc)

theorem expansion_eq (b : NetBuffer) (len : Int) : b.expansion len = (do
    let alloc ← Prog.loop (growTurn b.w len) b.alloc
    pure { b with alloc := alloc, size := alloc }) := rfl

theorem growLoop_ensures (w len alloc : Int) :
    Prog.Ensures (Prog.loop (growTurn w len) alloc)
      (fun a => ∃ k : Nat, a = double^[k] alloc ∧ ∀ j < k, double^[j] alloc-w ≤ len)
      fun _ => False := by
  refine Prog.ensures_loop
    (fun a => ∃ k : Nat, a = double^[k] alloc ∧ ∀ j < k, double^[j] alloc-w ≤ len) ?_ _
    ⟨0,rfl,by omega⟩
  intro a ha
  obtain ⟨k,hk,hbefore⟩ := ha
  apply Prog.ensures_pure
  by_cases hle : a-w ≤ len
  · rw [if_pos hle]
    refine ⟨k+1,by rw [Function.iterate_succ_apply',hk],fun j hj => ?_⟩
    cases Nat.lt_or_eq_of_le (Nat.le_of_lt_succ hj) with
    | inl hlt => exact hbefore j hlt
    | inr heq => rwa [heq,← hk]
  · rw [if_neg hle]
    exact ⟨k,hk,hbefore⟩

theorem growLoop_halts {w len alloc : Int} {k : Nat} (h : len < double^[k] alloc-w) :
    (Prog.loop (growTurn w len) alloc).Halts := by
  induction k generalizing alloc with
  | zero =>
    rw [Function.iterate_zero_apply] at h
    have hleave : (growTurn w len alloc).Returns (.leave alloc) := by
      rw [growTurn,if_neg (by omega)]
      exact Prog.returns_self _
    exact (Prog.returns_loop_leave hleave).halts
  | succ k ih =>
    by_cases hle : alloc-w ≤ len
    · obtain ⟨o,ho⟩ := ih (by rwa [Function.iterate_succ_apply] at h)
      have hagain : (growTurn w len alloc).Returns (.again (double alloc)) := by
        rw [growTurn,if_pos hle]
        exact Prog.returns_self _
      exact ⟨o,(Prog.ends_loop_again _ hagain o).mpr ho⟩
    · have hleave : (growTurn w len alloc).Returns (.leave alloc) := by
        rw [growTurn,if_neg hle]
        exact Prog.returns_self _
      exact (Prog.returns_loop_leave hleave).halts

theorem growLoop_endless {w len alloc : Int} (h : ∀ k : Nat, double^[k] alloc-w ≤ len) :
    ¬ (Prog.loop (growTurn w len) alloc).Halts := by
  refine Prog.loop_endless (fun a => ∃ k : Nat, a = double^[k] alloc) (fun a ha => ?_) alloc ⟨0,rfl⟩
  obtain ⟨k,hk⟩ := ha
  refine ⟨double a,?_,k+1,by rw [Function.iterate_succ_apply',hk]⟩
  rw [growTurn,if_pos (by rw [hk]; exact h k)]
  exact Prog.returns_self _

theorem moveToLeft_alloc {c : NetBuffer} (h : b.moveToLeft.Returns c) : c.alloc = b.alloc := by
  rw [moveToLeft] at h
  split_ifs at h with hm
  · obtain ⟨_,_,hc⟩ := (Prog.returns_bind _ _ _).mp h
    rw [(Prog.returns_pure _ _).mp hc]
  · rw [(Prog.returns_pure _ _).mp h]

theorem moveToLeft_w {c : NetBuffer} (h : b.InBounds) (hc : c.InBounds)
    (he : c.contents = b.contents) (hr : c.r = 0) : c.w = b.readable := by
  have h1 := hc.length_contents
  have h2 := h.length_contents
  rw [he,h2] at h1
  unfold readable at h1 ⊢
  omega

theorem checkSmall_cases (h : b.InBounds) :
    (∃ e, b.checkSmall.Returns e ∧ e.alloc = b.alloc ∧
      (b.alloc ≤ b.readable+4096 → b.alloc < 5*b.writeable)) ∨
    ∃ c : NetBuffer, c.w = b.readable ∧ c.alloc = b.alloc ∧
      ∀ o, b.checkSmall.Ends o ↔ (c.expansion 4096).Ends o := by
  have hr := h.r_nonneg
  rw [checkSmall]
  by_cases hsmall : 5*b.writeable ≤ b.alloc
  · rw [if_pos hsmall]
    rw [checkCapcity]
    by_cases hfit : b.writeable ≤ 4096
    · rw [if_pos hfit]
      obtain ⟨c,hc,hin,he,hr0⟩ := moveToLeft_returns h
      have hw := moveToLeft_w h hin he hr0
      have ha := moveToLeft_alloc hc
      by_cases hfit' : c.writeable ≤ 4096
      · refine .inr ⟨c,hw,ha,fun o => ?_⟩
        rw [hc.ends_bind,if_pos hfit']
      · refine .inl ⟨c,hc.bind ?_,ha,fun hle => ?_⟩
        · rw [if_neg hfit']
          exact Prog.returns_self c
        · rw [writeable] at hfit'
          omega
    · rw [if_neg hfit]
      refine .inl ⟨b,Prog.returns_self b,rfl,fun hle => ?_⟩
      rw [writeable] at hfit
      rw [readable] at hle
      omega
  · rw [if_neg hsmall]
    exact .inl ⟨b,Prog.returns_self b,rfl,fun _ => by omega⟩

theorem checkSmall_alloc (h : b.InBounds) {e : NetBuffer} (he : b.checkSmall.Returns e) :
    ∃ k : Nat, e.alloc = double^[k] b.alloc ∧
      ∀ j < k, double^[j] b.alloc ≤ b.readable+4096 := by
  cases checkSmall_cases h with
  | inl hstay =>
    obtain ⟨e',he',ha,_⟩ := hstay
    rw [he.unique he']
    exact ⟨0,ha,by omega⟩
  | inr hgrow =>
    obtain ⟨c,hw,ha,hiff⟩ := hgrow
    have hc := (hiff _).mp he
    rw [expansion_eq] at hc
    obtain ⟨alloc,halloc,hout⟩ := (Prog.returns_bind _ _ _).mp hc
    obtain ⟨k,hk,hbefore⟩ := (growLoop_ensures _ _ _).result halloc
    rw [(Prog.returns_pure _ _).mp hout,← ha]
    refine ⟨k,hk,fun j hj => ?_⟩
    have := hbefore j hj
    omega

theorem checkSmall_halts_of_growable (h : b.InBounds) (hg : Growable b.alloc b.readable) :
    b.checkSmall.Halts := by
  cases checkSmall_cases h with
  | inl hstay =>
    obtain ⟨e,he,_⟩ := hstay
    exact he.halts
  | inr hgrow =>
    obtain ⟨c,hw,ha,hiff⟩ := hgrow
    obtain ⟨k,hk⟩ := hg
    rw [← ha] at hk
    have hloop : (Prog.loop (growTurn c.w 4096) c.alloc).Halts :=
      growLoop_halts (k := k) (by omega)
    obtain ⟨o,ho⟩ := Prog.halts_bind hloop fun alloc _ =>
      Prog.halts_pure { c with alloc := alloc, size := alloc }
    exact ⟨o,(hiff o).mpr ho⟩

theorem checkSmall_endless (h : b.InBounds) (hg : ¬ Growable b.alloc b.readable) :
    ¬ b.checkSmall.Halts := by
  have hr := h.r_nonneg
  have hw := h.w_le
  have hlarge : 2^30 ≤ b.readable+4096 := by
    by_contra hlt
    exact hg (growable_of_small h.alloc_pos (by omega))
  have hno (k : Nat) : double^[k] b.alloc ≤ b.readable+4096 := by
    by_contra hlt
    exact hg ⟨k,by omega⟩
  cases checkSmall_cases h with
  | inl hstay =>
    obtain ⟨e,_,_,hroom⟩ := hstay
    have hlt := hroom (hno 0)
    have hle : b.alloc ≤ b.readable+4096 := hno 0
    rw [writeable] at hlt
    rw [readable] at hle hlarge
    omega
  | inr hgrow =>
    obtain ⟨c,hcw,ha,hiff⟩ := hgrow
    intro hh
    obtain ⟨o,ho⟩ := hh
    have hendless : ¬ (Prog.loop (growTurn c.w 4096) c.alloc).Halts := by
      refine growLoop_endless fun k => ?_
      have := hno k
      rw [ha,hcw]
      omega
    exact Prog.not_halts_bind hendless _ ⟨o,(hiff o).mp ho⟩

theorem store_alloc {s : Bytes} {d : NetBuffer} (h : (b.store s).Returns d) :
    d.alloc = b.alloc := by
  induction s generalizing b with
  | nil => rw [(Prog.returns_pure _ _).mp h]
  | cons c s ih =>
    obtain ⟨_,_,hd⟩ := (Prog.returns_bind _ _ _).mp h
    have hrest := ih hd
    exact hrest

/-! Turns of `readFd`, by what the read answers. -/

section
variable {σ : Type} {read : σ → Int → Option Int → σ×ReadAnswer} {k : Int}
  {s : ReadState σ} {source : σ}

def readAt (offset : Int) (s : ReadState σ) : Option Int :=
  if 0 < offset then some (offset+s.getSize) else none

theorem readTurn_interrupted
    (h : read s.source s.buffer.writeable (readAt k s) = (source,.fail .EINTR)) :
    (readTurn read k s).Returns (.again { s with source := source, getSize := -1 }) := by
  rw [readTurn]
  rw [readAt] at h
  dsimp only
  rw [h]
  exact Prog.returns_self _

theorem readTurn_nothing
    (h : read s.source s.buffer.writeable (readAt k s) = (source,.fail .EAGAIN)) :
    (readTurn read k s).Returns (.leave ({ n := s.allSize },source,s.buffer)) := by
  rw [readTurn]
  rw [readAt] at h
  dsimp only
  rw [h]
  exact Prog.returns_self _

theorem readTurn_closed
    (h : read s.source s.buffer.writeable (readAt k s) = (source,.bytes [])) :
    (readTurn read k s).Returns
      (.leave ({ n := 0, writeClosed := true },source,s.buffer)) := by
  rw [readTurn]
  rw [readAt] at h
  dsimp only
  rw [h]
  exact Prog.returns_self _

def filled (s : ReadState σ) (source : σ) (got : Bytes) (e : NetBuffer) : ReadState σ where
  source := source
  buffer := e
  getSize := got.length
  allSize := s.allSize+got.length

theorem readTurn_got {got : Bytes} (hne : got ≠ [])
    (h : read s.source s.buffer.writeable (readAt k s) = (source,.bytes got))
    (hb : s.buffer.InBounds) (hfit : got.length ≤ s.buffer.writeable) :
    ∃ d, (s.buffer.store got).Returns d ∧ d.InBounds ∧ d.alloc = s.buffer.alloc ∧
      d.contents = s.buffer.contents++got ∧ d.readable = s.buffer.readable+got.length ∧
      ∀ o, (readTurn read k s).Ends o ↔ (do
        let e ← d.checkSmall
        pure (.again (filled s source got e)) : Prog Fault (Turn (ReadState σ) _)).Ends o := by
  obtain ⟨d,hd,hin,he,_⟩ := store_returns hb hfit
  refine ⟨d,hd,hin,store_alloc hd,he,?_,fun o => ?_⟩
  · have h1 := hin.length_contents
    have h2 := hb.length_contents
    rw [he,List.length_append] at h1
    omega
  · rw [readTurn]
    rw [readAt] at h
    dsimp only
    rw [h]
    cases got with
    | nil => exact absurd rfl hne
    | cons x xs => exact hd.ends_bind _ o

theorem readTurn_got_ensures {I : ReadState σ → Prop} {R : ReadReturn×σ×NetBuffer → Prop}
    {got : Bytes} (hne : got ≠ [])
    (h : read s.source s.buffer.writeable (readAt k s) = (source,.bytes got))
    (hb : s.buffer.InBounds) (hfit : got.length ≤ s.buffer.writeable)
    (hI : ∀ e : NetBuffer, e.Wf → I (filled s source got e)) :
    Prog.Ensures (readTurn read k s) (Prog.Kept I R) fun _ => False := by
  obtain ⟨d,_,hin,_,_,_,hturn⟩ := readTurn_got hne h hb hfit
  intro o ho
  refine ((checkSmall_ensures hin).bind fun e he => ?_) o ((hturn o).mp ho)
  exact Prog.ensures_pure (hI e he.wf)

/-! A source that delivers what it has, in pieces and with interruptions, and then ends. -/

/-- How such a source ends: closed, or with nothing more for now. -/
def endAnswer (closed : Bool) : ReadAnswer := if closed then .bytes [] else .fail .EAGAIN

def endReturn (closed : Bool) (all : Int) : ReadReturn :=
  if closed then { n := 0, writeClosed := true } else { n := all }

/-- What the next read of `s` into `b` answers when `rest` is still to come. -/
inductive Fed (read : σ → Int → Option Int → σ×ReadAnswer) (closed : Bool)
    (Rest : σ → NetBuffer → Bytes → Prop) (Done : σ → Prop) (μ : σ → Nat) (s : σ) (b : NetBuffer)
    (rest : Bytes) : Prop where
  | interrupted (t : σ) (h : read s b.writeable none = (t,.fail .EINTR)) (ht : Rest t b rest)
    (hμ : μ t < μ s)
  | got (t : σ) (piece more : Bytes) (h : read s b.writeable none = (t,.bytes piece))
    (hne : piece ≠ []) (hrest : rest = piece++more) (hfit : piece.length ≤ b.writeable)
    (ht : ∀ d e, (b.store piece).Returns d → d.checkSmall.Returns e → Rest t e more)
    (hμ : μ t ≤ μ s)
  | ended (t : σ) (h : read s b.writeable none = (t,endAnswer closed)) (hrest : rest = [])
    (ht : Done t)

def Feeds (read : σ → Int → Option Int → σ×ReadAnswer) (closed : Bool)
    (Rest : σ → NetBuffer → Bytes → Prop) (Done : σ → Prop) (μ : σ → Nat) : Prop :=
  ∀ s b rest, b.Wf → Rest s b rest → Fed read closed Rest Done μ s b rest

variable {closed : Bool} {Rest : σ → NetBuffer → Bytes → Prop} {Done : σ → Prop} {μ : σ → Nat}
  {rest : Bytes}

theorem readTurn_ended {t : σ}
    (h : read s.source s.buffer.writeable (readAt k s) = (t,endAnswer closed)) :
    (readTurn read k s).Returns (.leave (endReturn closed s.allSize,t,s.buffer)) := by
  cases closed with
  | true => exact readTurn_closed h
  | false => exact readTurn_nothing h

theorem checkSmall_growable {d : NetBuffer} {total : Int} (hin : d.InBounds)
    (hg : Growable d.alloc total) (hle : d.readable ≤ total) :
    ∃ e, d.checkSmall.Returns e ∧ e.Holds d.contents ∧ Growable e.alloc total := by
  obtain ⟨e,he,hh⟩ := (checkSmall_ensures hin).returns
    (checkSmall_halts_of_growable hin (hg.mono hle))
  obtain ⟨k,hk,hbefore⟩ := checkSmall_alloc hin he
  refine ⟨e,he,hh,?_⟩
  rw [hk]
  refine hg.iterate fun j hj => ?_
  have := hbefore j hj
  omega

theorem feeds_returns (hfeeds : Feeds read closed Rest Done μ) (hwf : s.buffer.Wf)
    (hrest : Rest s.source s.buffer rest)
    (hroom : rest = [] ∨ Growable s.buffer.alloc (s.buffer.readable+rest.length)) :
    ∃ t b', (Prog.loop (readTurn read 0) s).Returns
        (endReturn closed (s.allSize+rest.length),t,b') ∧
      b'.Holds (s.buffer.contents++rest) ∧ Done t := by
  generalize hn : rest.length+μ s.source = n
  induction n using Nat.strongRecOn generalizing s rest with
  | ind n ih =>
    cases hfeeds s.source s.buffer rest hwf hrest with
    | interrupted t h ht hμ =>
      have hturn := readTurn_interrupted (s := s) (k := 0) h
      obtain ⟨u,b',hret,hh,hu⟩ := @ih (rest.length+μ t) (by omega)
        { s with source := t, getSize := -1 } rest hwf ht hroom rfl
      exact ⟨u,b',(Prog.ends_loop_again _ hturn _).mpr hret,hh,hu⟩
    | got t piece more h hne hsplit hfit ht hμ =>
      obtain ⟨d,hd,hin,ha,hc,hr,hturn⟩ := readTurn_got (k := 0) hne h hwf.toInBounds hfit
      have hlen : rest.length = piece.length+more.length := by rw [hsplit,List.length_append]
      have hpos := List.length_pos_iff.mpr hne
      have hg : Growable d.alloc (s.buffer.readable+rest.length) := by
        rw [ha]
        exact hroom.resolve_left fun hnil => by simp [hnil] at hlen; omega
      obtain ⟨e,he,hh,hge⟩ := checkSmall_growable hin hg (by omega)
      have hre : e.readable = s.buffer.readable+piece.length := by
        rw [hh.readable,hin.length_contents,hr]
      have htotal : e.readable+more.length = s.buffer.readable+rest.length := by omega
      have hagain := (hturn _).mpr (he.bind (Prog.returns_self _))
      obtain ⟨u,b',hret,hh',hu⟩ := @ih (more.length+μ t) (by omega) (filled s t piece e) more
        hh.wf (ht d e hd he) (.inr (htotal ▸ hge)) rfl
      refine ⟨u,b',(Prog.ends_loop_again _ hagain _).mpr ?_,?_,hu⟩
      · have hall : s.allSize+rest.length = s.allSize+piece.length+more.length := by omega
        rw [hall]
        exact hret
      · have hall : s.buffer.contents++rest = e.contents++more := by
          rw [hh.contents_eq,hc,hsplit,List.append_assoc]
        rwa [hall]
    | ended t h hnil ht =>
      have hturn := readTurn_ended (s := s) (k := 0) h
      refine ⟨t,s.buffer,?_,⟨hwf,by rw [hnil,List.append_nil]⟩,ht⟩
      have hall : s.allSize+rest.length = s.allSize := by simp [hnil]
      rw [hall]
      exact Prog.returns_loop_leave hturn

theorem feeds_endless (hfeeds : Feeds read closed Rest Done μ) (hwf : s.buffer.Wf)
    (hrest : Rest s.source s.buffer rest) (hne : rest ≠ [])
    (hroom : ¬ Growable s.buffer.alloc (s.buffer.readable+rest.length)) :
    ¬ (Prog.loop (readTurn read 0) s).Halts := by
  generalize hn : rest.length+μ s.source = n
  induction n using Nat.strongRecOn generalizing s rest with
  | ind n ih =>
    cases hfeeds s.source s.buffer rest hwf hrest with
    | interrupted t h ht hμ =>
      have hturn := readTurn_interrupted (s := s) (k := 0) h
      have hno := @ih (rest.length+μ t) (by omega) { s with source := t, getSize := -1 } rest hwf ht
        hne hroom rfl
      intro hh
      obtain ⟨o,ho⟩ := hh
      exact hno ⟨o,(Prog.ends_loop_again _ hturn o).mp ho⟩
    | got t piece more h hpiece hsplit hfit ht hμ =>
      obtain ⟨d,hd,hin,ha,hc,hr,hturn⟩ := readTurn_got (k := 0) hpiece h hwf.toInBounds hfit
      have hlen : rest.length = piece.length+more.length := by rw [hsplit,List.length_append]
      have hpos := List.length_pos_iff.mpr hpiece
      by_cases hhalts : d.checkSmall.Halts
      · obtain ⟨e,he,hh⟩ := (checkSmall_ensures hin).returns hhalts
        have hre : e.readable = s.buffer.readable+piece.length := by
          rw [hh.readable,hin.length_contents,hr]
        have hall : e.readable+more.length = s.buffer.readable+rest.length := by omega
        obtain ⟨k,hk,_⟩ := checkSmall_alloc hin he
        have hno : ¬ Growable e.alloc (e.readable+more.length) := by
          rw [hall,hk,ha]
          exact fun hg => hroom hg.of_iterate
        have hmore : more ≠ [] := by
          intro hnil
          refine checkSmall_endless hin (fun hg => hroom ?_) hhalts
          have htotal : d.readable = s.buffer.readable+rest.length := by
            rw [hr,hlen,hnil]
            simp
          rwa [ha,htotal] at hg
        have hagain := (hturn _).mpr (he.bind (Prog.returns_self _))
        have hendless := @ih (more.length+μ t) (by omega) (filled s t piece e) more
          hh.wf (ht d e hd he) hmore hno rfl
        intro hh'
        obtain ⟨o,ho⟩ := hh'
        exact hendless ⟨o,(Prog.ends_loop_again _ hagain o).mp ho⟩
      · refine Prog.loop_not_halts fun hh => ?_
        obtain ⟨o,ho⟩ := hh
        exact Prog.not_halts_bind hhalts _ ⟨o,(hturn o).mp ho⟩
    | ended t h hnil ht => exact absurd hnil hne

end

end NetBuffer
end AdlServer.Net
