import AdlServer.EchoServices

/-! Which coroutines of `tcp_echo_service` are never resumed again. -/
namespace AdlServer.Coro
open Program Memory Cpp Runs

namespace EchoServices
variable {s t : EchoServices} {a : Input} {e : EpollEvent} {c d : Coroutine} {code : EchoService}
  {io received sent : Io} {fds : List Int} {i : Nat}

/-- The coroutine is suspended, and nothing will ever be reported for it. -/
def Stranded (s : EchoServices) (address : UInt64) : Prop :=
  ∃ c∈s.coroutines, c.address = address ∧ c.Suspended ∧ ¬ c.Watched s.table ∧
    ∀ e∈s.pending, e.ptr ≠ address

/-- The event that is looked at is about the coroutine, and not the one that it waits for. -/
def Misses (s : EchoServices) (a : Input) (address : UInt64) : Prop :=
  (∃ received sent, a = .turn received sent) ∧ ∃ e rest c code, s.pending = e::rest ∧
    e.ptr = address ∧ c∈s.coroutines ∧ c.address = address ∧ c.frame = .suspended code ∧
      e.events&&&code.point.awaits = 0

theorem wait_stranded_iff {p : CoEpoll} (hs : s.Inv) (hphase : s.phase = .wait)
    (hp : s.Waits fds p) (address : UInt64) :
    (s.waited fds p).Stranded address ↔ s.Stranded address := by
  have hnone : s.pending = [] := by rw [pending,hphase]
  constructor
  · rintro ⟨c,hc,rfl,hsus,hidle,hothers⟩
    refine ⟨c,hc,rfl,hsus,fun hw => ?_,by simp [hnone]⟩
    -- what the wait has disarmed is among its events
    have hfd : c.fd∈fds := by
      by_contra hfd
      exact hidle ((Coroutine.watched_congr (disarm_other hfd)).mpr hw)
    obtain ⟨e,he,hreports⟩ := mem_of_forall₂ hp.pending.flip hfd
    obtain ⟨d,hd,_,hdfd,hptr,_⟩ := hs.sound.reported hreports
    have hdc := List.inj_on_of_nodup_map hs.sound.fds hd hc hdfd
    exact hothers e he (by rw [hptr,hdc])
  · rintro ⟨c,hc,rfl,hsus,hidle,_⟩
    refine ⟨c,hc,rfl,hsus,?_,fun e he hptr => ?_⟩
    · rintro ⟨r,hr,harmed⟩
      by_cases hfd : c.fd∈fds
      · exact disarm_mem hfd ⟨r,hr,harmed⟩
      · exact hidle ⟨r,(disarm_other hfd).symm.trans hr,harmed⟩
    · obtain ⟨fd,_,hreports⟩ := mem_of_forall₂ hp.pending he
      obtain ⟨r,hr,harmed,_⟩ := hreports.armed
      obtain ⟨d,hd,_,rfl,hptr',_⟩ := hs.sound.reported hreports
      have hdc := hs.sound.unique hd hc (hptr'.symm.trans hptr)
      exact hidle ⟨r,by rw [← hdc]; exact hr,harmed⟩

theorem Handled.watched_of_resumed (ht : Handled s received sent e c code t) (hs : s.Sound)
    (h : e.events&&&code.point.awaits ≠ 0) (hd : d∈t.coroutines) (hdc : d.address = c.address)
    (hsus : d.Suspended) : d.Watched t.table := by
  cases ht with
  | missed hmiss => exact absurd hmiss h
  | resumed _ hget hw =>
    cases mem_set hs.addresses hget hd with
    | inr hother => exact absurd hdc hother.2
    | inl hsame =>
      obtain ⟨code',hcode⟩ := hsus
      cases hw with
      | destroyed _ =>
        rw [hsame] at hcode
        cases hcode
      | thrown _ _ =>
        rw [hsame] at hcode
        cases hcode
      | waits _ _ =>
        rw [hsame]
        exact ⟨_,Function.update_self _ _ _,rfl⟩

theorem turn_stranded_iff (hs : s.Inv) (hphase : s.phase = .dispatch i)
    (hi : (i:Int) < s.poller.cnt) (he : s.poller.epoll_events[i]? = some e) (hc : c∈s.coroutines)
    (hready : c.Ready s.table e code) (ht : Handled s received sent e c code t)
    (address : UInt64) :
    Stranded { t with phase := .dispatch (i+1) } address ↔
      s.Stranded address ∨ s.Misses (.turn received sent) address := by
  have hcons := pending_cons hphase hi he
  have haside := ht.aside hs.sound hc hready.idle
  have hrest : pending { t with phase := .dispatch (i+1) } =
      pending { s with phase := .dispatch (i+1) } := by
    dsimp only [pending]
    rw [haside.poller]
  have honce := hs.once
  rw [hcons,List.map_cons,List.nodup_cons] at honce
  by_cases hmine : c.address = address
  · subst hmine
    have hbefore : ¬ s.Stranded c.address := by
      rintro ⟨_,_,_,_,_,hothers⟩
      exact hothers e (by rw [hcons]; exact List.mem_cons_self) hready.address
    by_cases hmiss : e.events&&&code.point.awaits = 0
    · refine iff_of_true ?_ (.inr ⟨⟨received,sent,rfl⟩,e,_,c,code,hcons,hready.address,hc,rfl,
        hready.frame,hmiss⟩)
      cases ht with
      | resumed h _ _ => exact absurd hmiss h
      | missed _ =>
        refine ⟨c,hc,rfl,⟨code,hready.frame⟩,hready.idle,fun e' he' hptr => ?_⟩
        refine honce.1 (List.mem_map.mpr ⟨e',he',?_⟩)
        rw [hptr,hready.address]
    · refine iff_of_false ?_ ?_
      · rintro ⟨d,hd,hdc,hsus,hidle,_⟩
        exact hidle (ht.watched_of_resumed hs.sound hmiss hd hdc hsus)
      · rintro (h | ⟨_,e',_,d,code',hcons',_,hd,hdc,hf,hmiss'⟩)
        · exact hbefore h
        · obtain rfl := hs.sound.unique hd hc hdc
          obtain rfl := Frame.suspended.inj (hf.symm.trans hready.frame)
          obtain ⟨rfl,_⟩ := List.cons.inj (hcons'.symm.trans hcons)
          exact hmiss hmiss'
  · have hother : ¬ s.Misses (.turn received sent) address := by
      rintro ⟨_,e',_,_,_,hcons',hptr,_⟩
      obtain ⟨rfl,_⟩ := List.cons.inj (hcons'.symm.trans hcons)
      exact hmine (hready.address.symm.trans hptr)
    rw [or_iff_left hother]
    constructor
    · rintro ⟨d,hd,rfl,hsus,hidle,hothers⟩
      obtain ⟨hmem,htable⟩ := haside.others d (Ne.symm hmine)
      have hd' := hmem.mp hd
      refine ⟨d,hd',rfl,hsus,fun hw => hidle ((Coroutine.watched_congr (htable hd')).mpr hw),?_⟩
      rw [hrest] at hothers
      rw [hcons,List.forall_mem_cons]
      exact ⟨fun hptr => hmine (hready.address.symm.trans hptr),hothers⟩
    · rintro ⟨d,hd,rfl,hsus,hidle,hothers⟩
      obtain ⟨hmem,htable⟩ := haside.others d (Ne.symm hmine)
      refine ⟨d,hmem.mpr hd,rfl,hsus,
        fun hw => hidle ((Coroutine.watched_congr (htable hd)).mp hw),?_⟩
      rw [hrest]
      rw [hcons,List.forall_mem_cons] at hothers
      exact hothers.2

theorem step_stranded_iff (hs : s.Inv) (h : Step s a t) (address : UInt64) :
    t.Stranded address ↔ s.Stranded address ∨ s.Misses a address := by
  cases step_goes hs h with
  | stays hnone =>
    refine (or_iff_left ?_).symm
    rintro ⟨⟨received,sent,rfl⟩,e,rest,_,_,hcons,_⟩
    rw [hnone received sent rfl] at hcons
    cases hcons
  | wait hphase _ hp _ =>
    rw [wait_stranded_iff hs hphase hp,or_iff_left]
    rintro ⟨⟨_,_,hturn⟩,_⟩
    cases hturn
  | turn hphase hi he hc hready ht => exact turn_stranded_iff hs hphase hi he hc hready ht address
  | resize hphase hi _ _ =>
    have hnone := pending_end hphase hi
    refine ⟨?_,?_⟩
    · rintro ⟨c,hc,hrest,hsus,hidle,_⟩
      exact .inl ⟨c,hc,hrest,hsus,hidle,by simp [hnone]⟩
    · rintro (⟨c,hc,hrest,hsus,hidle,_⟩ | ⟨⟨_,_,hturn⟩,_⟩)
      · exact ⟨c,hc,hrest,hsus,hidle,by simp [pending]⟩
      · cases hturn

theorem Begun.not_stranded {cnt : Int} (hs : s.Begun cnt) (address : UInt64) :
    ¬ s.Stranded address := by
  rintro ⟨c,hc,_,_,hidle,_⟩
  exact hidle (hs.watched c hc)

/-- Whatever the kernel reports and answers, the loop resumes only coroutines that wait for
just that, and a step comes to its end unless the array of events has no slot left or 2^30 of
them. A coroutine has been left for good exactly if the loop has looked at an event about it
that was not the one it waited for. Between its waits the loop goes through rounds of `CoEpoll`. -/
theorem coroutines_resumed {cnt epfd_ : Int} {s₀ : EchoServices} {as : List (EchoServices×Input)}
    (hstart : Started cnt epfd_ s₀) (h : Run Step s₀ as s) :
    (∀ c∈s.coroutines, c.Settled s.table) ∧
    (∀ e∈s.pending, ∃ c∈s.coroutines, ∃ code, c.Ready s.table e code) ∧
    (∀ a, s.Lawful a → (∃ t, (s.step a).Returns t) ∨ s.poller.slots = 0 ∨
      2^30 ≤ s.poller.slots) ∧
    (∀ address, s.Stranded address ↔ ∃ p∈as, p.1.Misses p.2 address) ∧
    (s.phase = .wait → ∃ rs, Run CoEpoll.Step (CoEpoll.start cnt) rs s.poller) := by
  have hbegun := hstart.begun.1
  have hs := run_inv h hbegun.inv
  refine ⟨hs.sound.settled,hs.pending,fun a ha => ?_,fun address => ?_,rounds_refine hstart h⟩
  · by_cases hslots : 1 ≤ s.poller.slots ∧ s.poller.slots < 2^30
    · exact .inl (hs.returns ha hslots.1 hslots.2)
    · exact .inr (by omega)
  · rw [h.ever_iff (fun _ _ _ hs h => h.inv hs)
      (fun _ _ _ hs h => step_stranded_iff hs h address) hbegun.inv]
    exact or_iff_right (hbegun.not_stranded address)

theorem oneService_missed : ∃ as s, Run Step oneService as s ∧ as.length = 2 ∧
    s.Stranded 100 := by
  have hreports : Reports oneService.table 5 ⟨EPOLLERR,100⟩ :=
    ⟨⟨{ event := ⟨Point.asks .RecvData,100⟩ },rfl,rfl,rfl,by decide⟩,by decide⟩
  have hlaw : oneService.Lawful (.wait 0 [5] (.ready [⟨EPOLLERR,100⟩])) :=
    ⟨.ready (by decide) (by decide),.ready (by simp) (.cons hreports .nil)⟩
  have hturn {s : EchoServices} : s.Lawful (.turn noIo noIo) := ⟨noIo_honest,noIo_honest⟩
  have hidle : ¬ ∃ r, disarm oneService.table [5] 5 = some r ∧ r.armed = true :=
    disarm_mem (by simp)
  refine ⟨_,_,.cons ⟨hlaw,⟨3,rfl⟩⟩ (.cons ⟨hturn,⟨3,rfl⟩⟩ (.nil _)),rfl,?_⟩
  refine ⟨_,List.mem_singleton_self _,rfl,⟨_,rfl⟩,?_,?_⟩
  · exact hidle
  · simp [pending]

theorem coroutines_resumed_missed : ∃ as s, Run Step oneService as s ∧ s.Stranded 100 ∧
    (∀ c∈s.coroutines, c.Settled s.table) ∧
    (∀ e∈s.pending, ∃ c∈s.coroutines, ∃ code, c.Ready s.table e code) ∧
    (∀ a, s.Lawful a → (∃ t, (s.step a).Returns t) ∨ s.poller.slots = 0 ∨
      2^30 ≤ s.poller.slots) ∧
    (∀ address, s.Stranded address ↔ ∃ p∈as, p.1.Misses p.2 address) ∧
    (s.phase = .wait → ∃ rs, Run CoEpoll.Step (CoEpoll.start 0) rs s.poller) := by
  obtain ⟨as,s,h,_,hs⟩ := oneService_missed
  exact ⟨as,s,h,hs,coroutines_resumed oneService_started h⟩

end EchoServices
end AdlServer.Coro
