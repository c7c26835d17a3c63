import AdlServer.GracefulShutdown

/-! The end of what a connection has taken over: a kernel that goes on taking bytes gets all of
them, and a connection that is closing then shuts its write side. -/
namespace AdlServer.Net.Conn
open Program Memory Cpp
variable {c d : Conn} {sockfd : Int} {sent : Bytes}

def Advances : WriteAnswer → Bool
  | .accept n => 0 < n
  | .fail _ => false

def rest (s : Bytes) : WriteAnswer → Bytes
  | .accept n => s.drop n
  | .fail _ => s

def restAll (s : Bytes) (as : List WriteAnswer) : Bytes := as.foldl rest s

theorem length_rest_le (s : Bytes) (a : WriteAnswer) : (rest s a).length ≤ s.length := by
  cases a with
  | accept n =>
    rw [rest,List.length_drop]
    omega
  | fail e => exact Nat.le_refl _

theorem restAll_eq_nil {as : List WriteAnswer} {s : Bytes}
    (h : s.length ≤ as.countP Advances) : restAll s as = [] := by
  induction as generalizing s with
  | nil => exact List.eq_nil_of_length_eq_zero (Nat.le_zero.mp h)
  | cons a as ih =>
    refine ih ?_
    rw [List.countP_cons] at h
    have hle := length_rest_le s a
    cases a with
    | fail e =>
      rw [if_neg (by simp [Advances])] at h
      omega
    | accept n =>
      by_cases hn : 0 < n
      · rw [rest,List.length_drop]
        rw [if_pos (by simp [Advances,hn])] at h
        omega
      · rw [if_neg (by simp [Advances,hn])] at h
        omega

theorem handleWrite_rest (h : c.outputBuffer.Wf) (hw : c.outputBuffer.contents ≠ [] →
    c.channel.isWriting = true) (a : WriteAnswer) :
    ∃ d, (c.handleWrite a).Returns d ∧ d.outputBuffer.contents = rest c.outputBuffer.contents a := by
  cases hwr : c.channel.isWriting with
  | false =>
    have hnil : c.outputBuffer.contents = [] := by
      by_contra hne
      rw [hw hne] at hwr
      cases hwr
    rw [handleWrite_idle hwr,hnil]
    refine ⟨c,Prog.returns_self c,hnil.trans ?_⟩
    cases a with
    | accept n => exact List.drop_nil.symm
    | fail e => rfl
  | true =>
    rw [handleWrite,if_pos hwr]
    cases a with
    | fail e => exact ⟨_,Prog.returns_self _,rfl⟩
    | accept n =>
      have hlen := h.length_contents
      have hk := List.length_take_le' n c.outputBuffer.contents
      have hdrop : c.outputBuffer.contents.drop (c.outputBuffer.contents.take n).length =
          c.outputBuffer.contents.drop n := by
        rw [List.length_take]
        by_cases hle : n ≤ c.outputBuffer.contents.length
        · rw [Nat.min_eq_left hle]
        · rw [Nat.min_eq_right (by omega),List.drop_length,List.drop_of_length_le (by omega)]
      dsimp only [write]
      by_cases hpos : 0 < (c.outputBuffer.contents.take n).length
      · obtain ⟨b,hb,hh⟩ := NetBuffer.retrieve_returns h
          (Int.natCast_nonneg (c.outputBuffer.contents.take n).length) (by omega)
        rw [if_pos hpos]
        rw [Int.toNat_natCast,hdrop] at hh
        refine ⟨_,hb.bind (Prog.returns_self _),?_⟩
        split_ifs
        · rw [(flushed_frame _).2.2.1]
          exact hh.contents_eq
        · exact hh.contents_eq
      · rw [if_neg hpos]
        refine ⟨_,Prog.returns_self _,?_⟩
        rw [rest,← hdrop,Nat.eq_zero_of_not_pos hpos]
        rfl

/-! The connection, from something waiting to nothing. -/

/-- A connection that has taken over `sent` and not been closed. -/
inductive Draining (sockfd : Int) (c : Conn) (sent : Bytes) : Prop where
  | waiting (h : Flow sockfd c) (hne : c.outputBuffer.contents ≠ [])
    (hs : c.accepted++c.outputBuffer.contents = sent) (ht : shutdowns c.trace = [])
  | done (h : Flow sockfd c) (he : c.outputBuffer.contents = []) (hs : c.accepted = sent)
    (ht : c.state = .kDisconnecting → shutdowns c.trace = [(0,sent)])

theorem Draining.flow (h : Draining sockfd c sent) : Flow sockfd c := by
  cases h with
  | waiting h hne hs ht => exact h
  | done h he hs ht => exact h

theorem flushed_shuts (h : At sockfd .established c) (he : c.outputBuffer.contents = [])
    (hs : c.state = .kDisconnecting) : shutdowns c.flushed.trace = shutdowns c.trace++[(0,c.accepted)] := by
  have hq := queueWriteComplete_sentOnly (-1) (c.onChannel Channel.disableWriting)
  have hat := queueWriteComplete_at (disableWriting_at h)
  have hoff : (c.onChannel Channel.disableWriting).queueWriteComplete.channel.isWriting = false :=
    @queueWriteComplete_cases _ (fun d => d.channel.isWriting = false) (disableWriting_idle c)
      (disableWriting_idle c)
  have hout := queueWriteComplete_outputBuffer (c.onChannel Channel.disableWriting)
  have hacc := queueWriteComplete_accepted (c.onChannel Channel.disableWriting)
  have hst := hq.state.trans hs
  have hsh := hq.shutdowns
  unfold flushed
  generalize (c.onChannel Channel.disableWriting).queueWriteComplete = d at hat hoff hout hacc hst hsh
  have hflow : Flow sockfd d := by
    refine ⟨hat,iff_of_false (by simp [hoff]) (not_not.mpr ?_)⟩
    rw [hout]
    exact he
  dsimp only
  rw [if_pos hst,shutdownWriteInLoop_shuts hflow hoff,hacc]
  exact (shutdowns_append _ _).trans (congrArg (·++_) hsh)

theorem WriteStep.draining (h : Flow sockfd c) (hne : c.outputBuffer.contents ≠ [])
    (hs : c.accepted++c.outputBuffer.contents = sent) (ht : shutdowns c.trace = [])
    (hd : WriteStep c d) : Draining sockfd d sent ∧ d.state = c.state := by
  have hw := h.writing.mpr hne
  cases hd with
  | idle hoff => simp [hw] at hoff
  | failed hw =>
    have hfail : SentOnly (-1) c (c.act (.wrote [])) := .snoc rfl rfl (.wrote [])
    exact ⟨.waiting ⟨act_at h.established trivial,h.writing⟩ hne hs (hfail.shutdowns.trans ht),rfl⟩
  | @moved t left b hw hsplit hb hleft =>
    have hout : (c.moved t b).outputBuffer.contents = left := hb.contents_eq
    have hne' : left ≠ [] := by
      cases hleft with
      | inr hne' => exact hne'
      | inl hnil =>
        rw [hnil,List.nil_append] at hsplit
        exact hsplit ▸ hne
    refine ⟨.waiting ⟨moved_at h.established t hb,iff_of_true hw (by rwa [hout])⟩ (by rwa [hout])
      ((moved_stream hsplit hb).trans hs) ((moved_sentOnly c t b).shutdowns.trans ht),rfl⟩
  | @flushed t b hw hsplit hne' hb =>
    have hsplit' : c.outputBuffer.contents = t++[] := by rw [hsplit,List.append_nil]
    have hat := moved_at h.established t hb
    have hnil : (c.moved t b).outputBuffer.contents = [] := hb.contents_eq
    have hacc : (c.moved t b).accepted = sent := by
      have hall := (moved_stream hsplit' hb).trans hs
      rwa [hnil,List.append_nil] at hall
    obtain ⟨hst,hacc',hout,-⟩ := flushed_frame (c.moved t b)
    refine ⟨.done (flushed_flushes hat hnil).flow (by rw [hout,hnil]) (hacc'.trans hacc) fun hdis => ?_,
      hst⟩
    rw [flushed_shuts hat hnil (hst.symm.trans hdis),(moved_sentOnly c t b).shutdowns,ht,hacc]
    rfl

theorem handleWrite_draining (h : Draining sockfd c sent) (a : WriteAnswer) :
    ∃ d, (c.handleWrite a).Returns d ∧ Draining sockfd d sent ∧ d.state = c.state ∧
      d.outputBuffer.contents = rest c.outputBuffer.contents a := by
  obtain ⟨d,hd,hrest⟩ := handleWrite_rest h.flow.established.output h.flow.writing.mpr a
  refine ⟨d,hd,?_⟩
  cases h with
  | waiting h hne hs ht =>
    obtain ⟨hdrain,hst⟩ :=
      ((handleWrite_steps h.established.output a).result hd).draining h hne hs ht
    exact ⟨hdrain,hst,hrest⟩
  | done h he hs ht =>
    have hoff : c.channel.isWriting = false := by
      cases hw : c.channel.isWriting with
      | false => rfl
      | true => exact absurd he (h.writing.mp hw)
    rw [handleWrite_idle hoff] at hd
    cases (Prog.returns_pure _ _).mp hd
    exact ⟨.done h he hs ht,rfl,hrest⟩

theorem handleWrites_drain (h : Draining sockfd c sent) (as : List WriteAnswer) :
    ∃ d, (run c (as.map .handleWrite)).Returns d ∧ Draining sockfd d sent ∧ d.state = c.state ∧
      d.outputBuffer.contents = restAll c.outputBuffer.contents as := by
  induction as generalizing c with
  | nil => exact ⟨c,Prog.returns_self c,h,rfl,rfl⟩
  | cons a as ih =>
    obtain ⟨e,he,hdrain,hst,hrest⟩ := handleWrite_draining h a
    obtain ⟨d,hd,hdrain',hst',hrest'⟩ := ih hdrain
    refine ⟨d,he.bind hd,hdrain',hst'.trans hst,?_⟩
    rw [hrest',hrest]
    rfl

/-- Whatever a connection has been through, if something waits then events in which the kernel
takes bytes, as many as there are bytes waiting, finish it, however much each of them takes and
however many fail in between: all that was ever taken over has been accepted, the channel is no
longer watched, and if the connection is closing its write side has been shut, once, behind the
last byte. -/
theorem output_drains (sockfd : Int) (reading writeComplete : Bool) (input output : Mem)
    (es : List Event) (hes : ∀ e∈es, ClosingEvent e) {sent : Bytes} {c : Conn}
    (hrun : Takes (connected sockfd reading writeComplete input output) es sent c)
    (hne : c.outputBuffer.contents ≠ []) (hst : c.state ≠ .kDisconnected)
    (as : List WriteAnswer) (has : c.outputBuffer.contents.length ≤ as.countP Advances) :
    ∃ d, (run c (as.map .handleWrite)).Returns d ∧ d.accepted = sent ∧
      d.outputBuffer.contents = [] ∧ d.channel.isWriting = false ∧ d.state = c.state ∧
      (d.state = .kDisconnecting → shutdowns d.trace = [(0,sent)]) := by
  have h := run_graceful hrun hes (connected_graceful sockfd reading writeComplete input output)
  rw [List.nil_append] at h
  have hdrain : Draining sockfd c sent := by
    cases h with
    | connected h hs ht => exact .waiting h.flow hne hs ht
    | draining h hd hs ht => exact .waiting h hne hs ht
    | shut h hd hw ht => exact absurd (h.not_writing hw) hne
    | closed h hd ht => exact absurd hd hst
  obtain ⟨d,hd,hdone,hstate,hrest⟩ := handleWrites_drain hdrain as
  have hnil := hrest.trans (restAll_eq_nil has)
  refine ⟨d,hd,?_⟩
  cases hdone with
  | waiting h hne hs ht => exact absurd hnil hne
  | done h he hs ht =>
    refine ⟨hs,he,?_,hstate,ht⟩
    cases hw : d.channel.isWriting with
    | false => rfl
    | true => exact absurd he (h.writing.mp hw)

theorem output_drains_closingRun :
    ∃ c d, Takes (connected 5 false true (fun _ => 0) fun _ => 0) (closingRun.take 3) [1,2,3] c ∧
      (run c ([.fail .EAGAIN,.accept 1,.accept 0,.accept 7].map .handleWrite)).Returns d ∧
      d.accepted = [1,2,3] ∧ d.outputBuffer.contents = [] ∧ d.channel.isWriting = false ∧
      d.state = c.state ∧ (d.state = .kDisconnecting → shutdowns d.trace = [(0,[1,2,3])]) := by
  have hes : ∀ e∈closingRun.take 3, ClosingEvent e :=
    fun e he => closingRun_closing e (List.mem_of_mem_take he)
  have hrun : ∃ c, Takes (connected 5 false true (fun _ => 0) fun _ => 0) (closingRun.take 3)
      [1,2,3] c ∧ c.outputBuffer.contents = [2,3] ∧ c.state ≠ .kDisconnected :=
    ⟨_,.cons ⟨30,rfl⟩ (.cons ⟨30,rfl⟩ (.cons ⟨30,rfl⟩ (.nil _))),rfl,by decide⟩
  obtain ⟨c,hc,hcontents,hst⟩ := hrun
  obtain ⟨d,hd⟩ := output_drains 5 false true _ _ (closingRun.take 3) hes hc (by simp [hcontents]) hst
    [.fail .EAGAIN,.accept 1,.accept 0,.accept 7] (by rw [hcontents]; decide)
  exact ⟨c,d,hc,hd⟩

end AdlServer.Net.Conn
