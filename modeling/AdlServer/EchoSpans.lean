import AdlServer.EchoServices

/-! What `recv` and `send` are given to read and write in `tcp_echo_service`, for all of its
coroutines: how long it stays inside `storage`. -/
namespace AdlServer.Coro
open Program Memory Cpp Runs
open Net (EPOLLIN sizeT sizeT_of_range)

namespace EchoService
variable {s : EchoService} {io : Io}

def Inside (s : EchoService) : Prop := 0 ≤ s.buf.data ∧ s.buf.data+s.buf.size ≤ reserved

/-- Whole for the next block, or as long as what is owed; `rsz` is an `int`. -/
structure Shaped (s : EchoService) : Prop where
  receiving : s.point = .RecvData → s.buf = wholeStorage
  sending : s.point = .SendData → s.buf.size = sizeT s.rsz
  low : -2^31 ≤ s.rsz
  high : s.rsz < 2^31

theorem le_wrapInt (x : Int) : -2^31 ≤ wrapInt x := Int.le_bmod (by decide)

theorem resumeRecv_shaped (storage : Mem) (r : Int) : (s.resumeRecv storage r).Shaped := by
  rw [resumeRecv]
  dsimp only
  split_ifs
  · exact ⟨by simp,by simp,le_wrapInt r,wrapInt_lt r⟩
  · exact ⟨by simp,fun _ => rfl,le_wrapInt r,wrapInt_lt r⟩

theorem resumeSend_shaped (h : s.Shaped) (r : Int) (errno : Option Errno) :
    (s.resumeSend r errno).Shaped := by
  rw [resumeSend]
  dsimp only
  split_ifs
  · exact ⟨by simp,by simp,h.low,h.high⟩
  · exact ⟨fun _ => rfl,by simp,h.low,h.high⟩
  · exact ⟨by simp,fun _ => rfl,le_wrapInt _,wrapInt_lt _⟩

theorem resume_shaped (h : s.Shaped) (io : Io) : (s.resume io).Shaped := by
  unfold resume
  split
  · split
    · exact resumeRecv_shaped _ _
    · exact resumeRecv_shaped _ _
  · split
    · exact resumeSend_shaped h _ _
    · exact resumeSend_shaped h _ _
  · exact h

def Fails (io : Io) : Point → Prop
  | .RecvData => ∃ e, io.received = .fail e
  | .SendData => ∃ e, io.sent = .fail e ∧ e ≠ .EPIPE
  | .returned => False

theorem Shaped.rsz (h : s.Shaped) (hin : s.Inside) (hp : s.point = .SendData) :
    0 ≤ s.rsz ∧ s.rsz ≤ reserved ∧ (s.buf.size:Int) = s.rsz := by
  obtain ⟨h0,hle⟩ := hin
  have hsize := h.sending hp
  have hlow := h.low
  have hhigh := h.high
  have hreserved : (reserved:Int) = 3900 := rfl
  rw [sizeT] at hsize
  omega

theorem recv_failed (storage : Mem) : (s.resumeRecv storage (-1)).point = .SendData ∧
    ¬ (s.resumeRecv storage (-1)).Inside := by
  have hwrap : wrapInt (-1) = -1 := by decide
  have hsize : sizeT (-1) = 2^64-1 := by decide
  have hreserved : (reserved:Int) = 3900 := rfl
  rw [resumeRecv,hwrap]
  dsimp only
  rw [if_neg (by decide),hsize]
  refine ⟨rfl,fun hin => ?_⟩
  have hle := hin.2
  dsimp only at hle
  omega

theorem send_failed {e : Errno} (h0 : 0 ≤ s.rsz) (he : e ≠ .EPIPE) :
    (s.resumeSend (-1) (some e)).point = .SendData ∧ ¬ (s.resumeSend (-1) (some e)).Inside := by
  have hwrap : wrapInt (-1) = -1 := by decide
  rw [resumeSend,hwrap]
  dsimp only
  rw [if_neg (fun h => he (Option.some.inj h.2)),if_neg (by omega)]
  refine ⟨rfl,fun hin => ?_⟩
  have hbegin := hin.1
  dsimp only at hbegin
  omega

theorem send_broken (hin : s.Inside) : (s.resumeSend (-1) (some .EPIPE)).Inside := by
  have hwrap : wrapInt (-1) = -1 := by decide
  rw [resumeSend,hwrap]
  dsimp only
  rw [if_pos ⟨rfl,rfl⟩]
  exact hin

theorem recv_inside (storage : Mem) {n : Nat} (hn : n ≤ reserved) (hin : s.Inside) :
    (s.resumeRecv storage n).Inside := by
  have hreserved : reserved = 3900 := rfl
  have hwrap : wrapInt n = n := wrapInt_of_range (by omega) (by omega)
  rw [resumeRecv,hwrap]
  dsimp only
  split_ifs
  · exact hin
  · refine ⟨Int.le_refl 0,?_⟩
    dsimp only
    rw [sizeT_of_range (by omega) (by omega)]
    omega

theorem send_inside {n : Nat} (h0 : 0 ≤ s.rsz) (hle : s.rsz ≤ reserved) (hn : (n:Int) ≤ s.rsz)
    (errno : Option Errno) : (s.resumeSend n errno).Inside := by
  have hreserved : (reserved:Int) = 3900 := rfl
  have hwrap : wrapInt n = n := wrapInt_of_range (by omega) (by omega)
  have hrest : wrapInt (s.rsz-n) = s.rsz-n := wrapInt_of_range (by omega) (by omega)
  rw [resumeSend,hwrap]
  dsimp only
  rw [if_neg (fun h => by omega)]
  by_cases hall : (n:Int) = s.rsz
  · rw [if_pos hall]
    exact ⟨Int.le_refl 0,Int.le_refl _⟩
  · rw [if_neg hall,hrest]
    refine ⟨Int.natCast_nonneg n,?_⟩
    dsimp only
    rw [sizeT_of_range (by omega) (by omega)]
    omega

theorem resume_inside_iff (h : s.Shaped) (hin : s.Inside) (io : Io) :
    (s.resume io).Inside ↔ ¬ Fails io s.point := by
  unfold resume
  cases hp : s.point with
  | RecvData =>
    dsimp only
    cases hio : io.received with
    | fail e => exact iff_of_false (recv_failed _).2 fun hno => hno ⟨e,hio⟩
    | bytes block =>
      refine iff_of_true (recv_inside _ ?_ hin) ?_
      · rw [h.receiving hp,List.length_take]
        exact Nat.min_le_left _ _
      · rintro ⟨e,he⟩
        cases hio.symm.trans he
  | SendData =>
    obtain ⟨h0,hle,hsize⟩ := h.rsz hin hp
    dsimp only
    cases hio : io.sent with
    | accept n =>
      refine iff_of_true (send_inside h0 hle ?_ _) ?_
      · rw [← hsize]
        exact Int.ofNat_le.mpr (Nat.min_le_right _ _)
      · rintro ⟨e,he,_⟩
        cases hio.symm.trans he
    | fail e =>
      by_cases he : e = .EPIPE
      · subst he
        refine iff_of_true (send_broken hin) ?_
        rintro ⟨e,he,hne⟩
        cases hio.symm.trans he
        exact hne rfl
      · exact iff_of_false (send_failed h0 he).2 fun hno => hno ⟨e,hio,he⟩
  | returned => exact iff_of_true hin id

theorem fails_waits (h : s.Shaped) (hin : s.Inside) (hf : Fails io s.point) :
    (s.resume io).point = .SendData := by
  unfold resume
  cases hp : s.point with
  | RecvData =>
    rw [hp] at hf
    obtain ⟨e,he⟩ := hf
    rw [he]
    exact (recv_failed _).1
  | SendData =>
    rw [hp] at hf
    obtain ⟨e,he,hne⟩ := hf
    rw [he]
    exact (send_failed (h.rsz hin hp).1 hne).1
  | returned =>
    rw [hp] at hf
    exact hf.elim

end EchoService
namespace EchoServices
variable {s t : EchoServices} {a : Input} {e : EpollEvent} {c d : Coroutine} {code : EchoService}
  {received sent : Io}

def Shaped (s : EchoServices) : Prop :=
  ∀ c∈s.coroutines, ∀ code, c.frame = .suspended code → code.Shaped

/-- What every coroutine waits to receive into or to send from lies in its `storage`. -/
def Inside (s : EchoServices) : Prop :=
  ∀ c∈s.coroutines, ∀ code, c.frame = .suspended code → code.Inside

/-- The step resumes a coroutine whose call fails, and which then waits again. -/
def Fails (s : EchoServices) (a : Input) : Prop :=
  ∃ received sent e rest c code, a = .turn received sent ∧ s.pending = e::rest ∧
    c∈s.coroutines ∧ c.Ready s.table e code ∧ e.events&&&code.point.awaits ≠ 0 ∧
    EchoService.Fails (code.point.chosen received sent) code.point ∧
    (code.point.chosen received sent).refusals .MOD = none

theorem Sound.deciding (hs : s.Sound) (hc : c∈s.coroutines) :
    EpollWrapper.deciding s.table c.fd = .MOD := by
  obtain ⟨r,hr,_⟩ := (hs.settled c hc).known
  rw [EpollWrapper.deciding,hr,Option.isSome_some,if_pos rfl]

theorem Handled.suspended (ht : Handled s received sent e c code t) (hs : s.Sound)
    (hd : d∈t.coroutines) {code' : EchoService} (hf : d.frame = .suspended code') :
    d∈s.coroutines ∨ code' = code.resume (code.point.chosen received sent) := by
  cases ht with
  | missed _ => exact .inl hd
  | resumed _ hget hw =>
    cases mem_set hs.addresses hget hd with
    | inr hother => exact .inl hother.1
    | inl hsame =>
      rw [hsame] at hf
      cases hw with
      | destroyed _ => cases hf
      | thrown _ _ => cases hf
      | waits _ _ => exact .inr (Frame.suspended.inj hf).symm

theorem Handled.shaped (ht : Handled s received sent e c code t) (hs : s.Sound) (h : s.Shaped)
    (hc : c∈s.coroutines) (hf : c.frame = .suspended code) : t.Shaped := by
  intro d hd code' hf'
  cases ht.suspended hs hd hf' with
  | inl hd => exact h d hd code' hf'
  | inr hcode =>
    rw [hcode]
    exact EchoService.resume_shaped (h c hc code hf) _

theorem Step.shaped (h : Step s a t) (hs : s.Inv) (hshaped : s.Shaped) : t.Shaped := by
  cases step_goes hs h with
  | stays _ => exact hshaped
  | wait _ _ _ _ => exact hshaped
  | turn _ _ _ hc hready ht => exact ht.shaped hs.sound hshaped hc hready.frame
  | resize _ _ _ _ => exact hshaped

theorem Handled.inside_iff (ht : Handled s received sent e c code t) (hs : s.Sound)
    (hshaped : s.Shaped) (hin : s.Inside) (hc : c∈s.coroutines) (hf : c.frame = .suspended code) :
    t.Inside ↔ ¬ (e.events&&&code.point.awaits ≠ 0 ∧
      EchoService.Fails (code.point.chosen received sent) code.point ∧
      (code.point.chosen received sent).refusals .MOD = none) := by
  have hcode := hshaped c hc code hf
  have hinside := hin c hc code hf
  have hiff := EchoService.resume_inside_iff hcode hinside (code.point.chosen received sent)
  cases ht with
  | missed h => exact iff_of_true hin fun hfails => hfails.1 h
  | @resumed i d table raised h hget hw =>
    have hmem : d∈s.coroutines.set i d :=
      List.mem_set (List.getElem?_eq_some_iff.mp hget).1 d
    have hothers (hd : ∀ code', d.frame = .suspended code' → code'.Inside) :
        ∀ x∈s.coroutines.set i d, ∀ code', x.frame = .suspended code' → code'.Inside := by
      intro x hx code' hx'
      cases mem_set hs.addresses hget hx with
      | inl hsame =>
        rw [hsame] at hx'
        exact hd code' hx'
      | inr hother => exact hin x hother.1 code' hx'
    have hop := hs.deciding hc
    cases hw with
    | destroyed hp =>
      refine iff_of_true (hothers (by simp)) ?_
      rintro ⟨_,hfails,_⟩
      cases hp.symm.trans (EchoService.fails_waits hcode hinside hfails)
    | thrown _ hr =>
      rw [hop] at hr
      refine iff_of_true (hothers (by simp)) ?_
      rintro ⟨_,_,hnone⟩
      exact hr hnone
    | waits _ hr =>
      rw [hop] at hr
      constructor
      · rintro hall ⟨_,hfails,_⟩
        exact hiff.mp (hall _ hmem _ rfl) hfails
      · intro hno
        refine hothers fun code' hcode' => ?_
        rw [← Frame.suspended.inj hcode']
        exact hiff.mpr fun hfails => hno ⟨h,hfails,hr⟩

theorem step_inside_iff (hs : s.Inv) (hshaped : s.Shaped) (hin : s.Inside) (h : Step s a t) :
    t.Inside ↔ ¬ s.Fails a := by
  cases step_goes hs h with
  | stays hnone =>
    refine iff_of_true hin ?_
    rintro ⟨received,sent,_,_,_,_,rfl,hcons,_⟩
    rw [hnone received sent rfl] at hcons
    cases hcons
  | wait _ _ _ _ =>
    refine iff_of_true hin ?_
    rintro ⟨_,_,_,_,_,_,hturn,_⟩
    cases hturn
  | resize _ _ _ _ =>
    refine iff_of_true hin ?_
    rintro ⟨_,_,_,_,_,_,hturn,_⟩
    cases hturn
  | turn hphase hi he hc hready ht =>
    have hcons := pending_cons hphase hi he
    refine (ht.inside_iff hs.sound hshaped hin hc hready.frame).trans (not_congr ⟨fun hfails => ?_,?_⟩)
    · exact ⟨_,_,_,_,_,_,rfl,hcons,hc,hready,hfails⟩
    · rintro ⟨_,_,e',_,d,code',hturn,hcons',hd,hready',hfails⟩
      cases hturn
      obtain ⟨rfl,_⟩ := List.cons.inj (hcons'.symm.trans hcons)
      obtain rfl := hs.sound.unique hd hc (hready'.address.symm.trans hready.address)
      obtain rfl := Frame.suspended.inj (hready'.frame.symm.trans hready.frame)
      exact hfails

theorem Started.fresh {cnt epfd_ : Int} (h : Started cnt epfd_ s) :
    ∀ c∈s.coroutines, c.frame = .suspended {} := by
  induction h with
  | none => simp
  | call _ _ _ _ ht ih =>
    obtain ⟨table,_,ht⟩ := (Prog.returns_bind _ _ _).mp ht
    rw [(Prog.returns_pure _ _).mp ht]
    intro c hc
    cases List.mem_append.mp hc with
    | inl hc => exact ih c hc
    | inr hc => rw [List.mem_singleton.mp hc]

/-- No coroutine ever has a span outside its `storage` exactly if no `recv` fails and no `send`
fails otherwise than with `EPIPE`, as long as the coroutine then goes on waiting. -/
theorem spans_inside_iff {cnt epfd_ : Int} {s₀ : EchoServices} {as : List (EchoServices×Input)}
    (hstart : Started cnt epfd_ s₀) (h : Run Step s₀ as s) :
    (∀ x∈visited as s, x.Inside) ↔ ∀ p∈as, ¬ p.1.Fails p.2 := by
  have hfresh := hstart.fresh
  refine h.good_iff (I := fun s => s.Inv ∧ s.Shaped) (fun _ _ _ hs h => ⟨h.inv hs.1,h.shaped hs.1 hs.2⟩)
    (fun _ _ _ hs hin h => step_inside_iff hs.1 hs.2 hin h) ⟨hstart.begun.1.inv,?_⟩ ?_
  · intro c hc code hf
    rw [← Frame.suspended.inj ((hfresh c hc).symm.trans hf)]
    exact ⟨fun _ => rfl,by simp,by decide,by decide⟩
  · intro c hc code hf
    rw [← Frame.suspended.inj ((hfresh c hc).symm.trans hf)]
    exact ⟨Int.le_refl 0,Int.le_refl _⟩

def brokenIo : Io where
  received := .fail .ECONNRESET
  sent := .accept 0

theorem brokenIo_honest : brokenIo.Honest := by simp [Io.Honest,brokenIo]

theorem oneService_broken : ∃ as s, Run Step oneService as s ∧ as.length = 2 ∧ ¬ s.Inside := by
  have hreports : Reports oneService.table 5 ⟨EPOLLIN,100⟩ :=
    ⟨⟨{ event := ⟨Point.asks .RecvData,100⟩ },rfl,rfl,rfl,by decide⟩,by decide⟩
  have hlaw : oneService.Lawful (.wait 0 [5] (.ready [⟨EPOLLIN,100⟩])) :=
    ⟨.ready (by decide) (by decide),.ready (by simp) (.cons hreports .nil)⟩
  have hturn {s : EchoServices} : s.Lawful (.turn brokenIo noIo) := ⟨brokenIo_honest,noIo_honest⟩
  refine ⟨_,_,.cons ⟨hlaw,⟨3,rfl⟩⟩ (.cons ⟨hturn,⟨6,rfl⟩⟩ (.nil _)),rfl,fun hin => ?_⟩
  exact (EchoService.recv_failed _).2 (hin _ (List.mem_singleton_self _) _ rfl)

theorem spans_inside_iff_broken : ∃ as s, Run Step oneService as s ∧ ¬ s.Inside ∧
    ((∀ x∈visited as s, x.Inside) ↔ ∀ p∈as, ¬ p.1.Fails p.2) := by
  obtain ⟨as,s,h,_,hs⟩ := oneService_broken
  exact ⟨as,s,h,hs,spans_inside_iff oneService_started h⟩

end EchoServices
end AdlServer.Coro
