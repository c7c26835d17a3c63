import AdlServer.SendStream

/-! Messages and files on one connection: which files `sendFile` sends, and what it
sends of the others. -/
namespace AdlServer.Net
open Program Memory Cpp
namespace Conn
variable {c d : Conn} {sockfd : Int}

/-- What an event adds to the stream. -/
def offered (c : Conn) : Event → Bytes
  | .call (.send m _) => m
  | .call (.sendFile fd _ _ _) => ((c.files fd).map OpenFile.content).getD []
  | _ => []

/-- From `c` to `d` through the events, which offered `sent`. -/
inductive Sends : Conn → List Event → Bytes → Conn → Prop where
  | nil (c : Conn) : Sends c [] [] c
  | cons {c d f : Conn} {e : Event} {es : List Event} {sent : Bytes}
    (h : (c.step e).Returns d) (hs : Sends d es sent f) : Sends c (e::es) (c.offered e++sent) f

/-- The events of mixed sending; files are opened beside it. -/
inductive MixedEvent : Event → Prop where
  | send (m : Bytes) (a : WriteAnswer) (h : NotFatal a) : MixedEvent (.call (.send m a))
  | sendFile (fd size : Int) (a : WriteAnswer) (reads : List FileAnswer) (h : NotFatal a) :
    MixedEvent (.call (.sendFile fd size a reads))
  | xopen (fd : Int) (content : Bytes) : MixedEvent (.call (.xopen fd content))
  | handleWrite (a : WriteAnswer) : MixedEvent (.handleWrite a)

/-- A file to be sent is open, at its start, and of the size given. -/
def FileReady (c : Conn) : Event → Prop
  | .call (.sendFile fd size _ _) => 0 ≤ fd ∧ 1 ≤ size ∧ size < 2^31 ∧
    ∃ f, c.files fd = some f ∧ f.offset = 0 ∧ (f.content.length:Int) = size
  | _ => True

/-- Nothing waits, and the kernel takes the file at once; its descriptor is not `0`. -/
def TakenWhole (c : Conn) : Event → Prop
  | .call (.sendFile fd size a _) => fd ≠ 0 ∧ c.idle = true ∧ ∃ n : Nat, a = .accept n ∧ size ≤ n
  | _ => True

theorem files_streaming (h : Streaming sockfd c) (files : Int → Option OpenFile) :
    Streaming sockfd { c with files := files } :=
  ⟨{ h.established with },h.state,h.writing,h.complete⟩

theorem sendfile_streaming (h : Streaming sockfd c) {fd : Int} {f : OpenFile}
    (hf : c.files fd = some f) (h0 : f.offset = 0) (n : Nat) :
    (c.sendfile fd f.content.length (.accept n)).2 = .ok (f.content.take n).length ∧
      Streaming sockfd (c.sendfile fd f.content.length (.accept n)).1 ∧
      (c.sendfile fd f.content.length (.accept n)).1.outputBuffer = c.outputBuffer ∧
      (c.sendfile fd f.content.length (.accept n)).1.accepted =
        c.accepted++f.content.take n := by
  have ht : f.content.take (min n f.content.length) = f.content.take n :=
    List.take_eq_take_min.symm
  have hc : Streaming sockfd (c.act (.file .sendfile fd)) :=
    act_streaming h trivial (by simp)
  have hfd : (c.act (.file .sendfile fd)).files fd = some f := hf
  unfold sendfile
  simp only [hfd,h0,List.drop_zero,ht]
  refine ⟨trivial,?_,rfl,rfl⟩
  exact files_streaming (accepted_streaming hc (f.content.take n)) _

theorem fileMode_of_ne {fd : Int} (h : fd ≠ 0) : fileMode none fd = true :=
  bne_iff_ne.mpr h

theorem directWrite_file (h : Streaming sockfd c) (he : c.outputBuffer.contents = [])
    {fd size : Int} {f : OpenFile} (hf : c.files fd = some f) (h0 : f.offset = 0)
    (hlen : (f.content.length:Int) = size) (hsize : size < 2^31) (hfd : fd ≠ 0) (n : Nat) :
    FirstWrite sockfd c f.content (f.content.take n).length
        (c.directWrite none fd size (.accept n)) ∧
      (c.directWrite none fd size (.accept n)).1.files fd = none := by
  obtain ⟨hn,hs,hout,hacc⟩ := sendfile_streaming h hf h0 n
  have hk := List.length_take_le' n f.content
  have hcount : sizeT size = f.content.length := by
    rw [← hlen]
    exact sizeT_nat (by omega)
  have hrest : sizeT (size-(f.content.take n).length) =
      f.content.length-(f.content.take n).length := by
    rw [← hlen,← Int.ofNat_sub hk]
    exact sizeT_nat (by omega)
  have ht : f.content.take (f.content.take n).length = f.content.take n := by simp
  rw [directWrite]
  rw [fileMode_of_ne hfd,if_pos rfl,hcount]
  generalize c.sendfile fd f.content.length (.accept n) = r at hn hs hout hacc ⊢
  obtain ⟨d,nwrote⟩ := r
  dsimp only at hn hs hout hacc
  subst hn
  dsimp only
  rw [if_pos rfl,hrest]
  have htold := told_same d (f.content.length-(f.content.take n).length = 0)
  refine ⟨⟨?_,htold.outputBuffer.trans hout,?_,rfl,rfl,rfl⟩,Function.update_self _ _ _⟩
  · apply close_streaming
    split_ifs
    · exact queueWriteComplete_streaming hs (by rw [hout,he])
    · exact hs
  · rw [ht,← hacc]
    exact htold.accepted

theorem copyFile_closed {fd : Int} (hf : c.files fd = none) (nwrote : Nat)
    (reads : List FileAnswer) :
    (c.copyFile fd nwrote reads).Returns ((c.act (.file .read fd)).close fd) := by
  have hread : (NetBuffer.readFd FileSource.read { file := none, answers := reads }
      c.outputBuffer nwrote).Returns
        ({ n := -1, savedErrno := some .EBADF },{ file := none, answers := reads },
          c.outputBuffer) :=
    Prog.returns_loop_leave (Prog.returns_self _)
  rw [copyFile]
  have hfd : (c.act (.file .read fd)).files fd = none := hf
  simp only [hfd]
  exact hread.bind (Prog.returns_self _)

theorem bufferRest_closed {fd : Int} (hf : c.files fd = none) (hfd : fd ≠ 0) (sent : Sent)
    (reads : List FileAnswer) :
    ∃ d, (c.bufferRest none fd sent reads).Returns d ∧ d.accepted = c.accepted ∧
      d.outputBuffer = c.outputBuffer := by
  have hcopy := copyFile_closed hf sent.nwrote reads
  rw [bufferRest]
  rw [fileMode_of_ne hfd,if_pos rfl]
  refine ⟨_,hcopy.bind (Prog.returns_self _),?_,?_⟩
  · rw [watch_accepted]
    rfl
  · rw [watch_outputBuffer]
    rfl

theorem sendfile_fail (c : Conn) (fd : Int) (count : Nat) (e : Errno) :
    ∃ e', c.sendfile fd count (.fail e) = (c.act (.file .sendfile fd),.error e') := by
  unfold sendfile
  dsimp only
  cases (c.act (.file .sendfile fd)).files fd with
  | none => exact ⟨.EBADF,rfl⟩
  | some f => exact ⟨e,rfl⟩

theorem directWrite_dropped (c : Conn) {fd : Int} (size : Int) {a : WriteAnswer}
    (h : fd = 0 ∨ ∃ e, a = .fail e) :
    (c.directWrite none fd size a).2.remaining = 0 ∧
      (c.directWrite none fd size a).1.accepted = c.accepted ∧
      (c.directWrite none fd size a).1.outputBuffer = c.outputBuffer := by
  cases a with
  | fail e =>
    obtain ⟨e',he⟩ := sendfile_fail c fd (sizeT size) e
    rw [directWrite]
    rw [he]
    split_ifs
    · exact ⟨rfl,rfl,rfl⟩
    · exact ⟨rfl,rfl,rfl⟩
  | accept n =>
    have hfd : fd = 0 := by
      cases h with
      | inl h => exact h
      | inr h =>
        obtain ⟨e,he⟩ := h
        cases he
    subst hfd
    simp [directWrite,fileMode,write,messageLen,close,act]

theorem sendFile_done (h : Streaming sockfd c) {fd size : Int} {a : WriteAnswer} {r : Conn×Sent}
    (reads : List FileAnswer) (hfd : 0 ≤ fd) (hr : c.tryFirst none fd size a = r)
    (h0 : r.2.remaining = 0) : (c.sendFile fd size a reads).Returns r.1 := by
  rw [sendFile]
  rw [if_neg (by omega),if_pos h.state,sendInLoop_eq (by simp [h.state]),hr,
    check_pos .sendInLoop (.inl rfl),Prog.pure_bind,if_neg (by simp [Sent.left,h0]),
    Prog.returns_pure]

theorem sendFile_rest (h : Streaming sockfd c) {fd size : Int} {a : WriteAnswer} {r : Conn×Sent}
    (reads : List FileAnswer) (hfd : 0 ≤ fd) (hr : c.tryFirst none fd size a = r)
    (h0 : r.2.remaining ≠ 0) (hf : r.2.faultError = false) :
    c.sendFile fd size a reads = r.1.bufferRest none fd r.2 reads := by
  rw [sendFile]
  rw [if_neg (by omega),if_pos h.state,sendInLoop_eq (by simp [h.state]),hr,
    check_pos .sendInLoop (.inl rfl),Prog.pure_bind,if_pos (Sent.left_iff.mpr ⟨hf,h0⟩)]

theorem sendFile_whole (h : Streaming sockfd c) {fd size : Int} {a : WriteAnswer}
    {reads : List FileAnswer} (hr : FileReady c (.call (.sendFile fd size a reads)))
    (hw : TakenWhole c (.call (.sendFile fd size a reads))) :
    ∃ d, (c.sendFile fd size a reads).Returns d ∧ Streaming sockfd d ∧
      Carries c d (c.offered (.call (.sendFile fd size a reads))) := by
  obtain ⟨hfd,_,hsize,f,hf,h0,hlen⟩ := hr
  obtain ⟨hne,hi,n,ha,hn⟩ := hw
  subst ha
  have he := (idle_iff h).mp hi
  obtain ⟨hw,_⟩ := directWrite_file h he hf h0 hlen hsize hne n
  have hall : f.content.take n = f.content := List.take_of_length_le (by omega)
  rw [hall] at hw
  refine ⟨_,sendFile_done h reads hfd (tryFirst_idle hi _ _ _ _) (by rw [hw.remaining,Nat.sub_self]),
    hw.streaming,?_⟩
  have hoff : c.offered (.call (.sendFile fd size (.accept n) reads)) = f.content := by
    simp [offered,hf]
  rw [hoff]
  refine carries_split (fun _ => he) hw.accepted ?_
  rw [hw.output,List.drop_length,List.append_nil]

theorem sendFile_cut (h : Streaming sockfd c) {fd size : Int} {a : WriteAnswer}
    {reads : List FileAnswer} (hr : FileReady c (.call (.sendFile fd size a reads)))
    (hw : ¬ TakenWhole c (.call (.sendFile fd size a reads))) :
    ∃ d k, (c.sendFile fd size a reads).Returns d ∧
      k < (c.offered (.call (.sendFile fd size a reads))).length ∧
      d.accepted++d.outputBuffer.contents = c.accepted++c.outputBuffer.contents++
        (c.offered (.call (.sendFile fd size a reads))).take k := by
  obtain ⟨hfd,hpos,hsize,f,hf,h0,hlen⟩ := hr
  have hoff : c.offered (.call (.sendFile fd size a reads)) = f.content := by
    simp [offered,hf]
  have hcut : 0 < f.content.length := by omega
  rw [hoff]
  by_cases hi : c.idle
  · by_cases hdrop : fd = 0 ∨ ∃ e, a = .fail e
    · obtain ⟨hrem,hacc,hout⟩ := directWrite_dropped c size hdrop
      refine ⟨_,0,sendFile_done h reads hfd (tryFirst_idle hi _ _ _ _) hrem,hcut,?_⟩
      rw [hacc,hout,List.take_zero,List.append_nil]
    · rw [not_or] at hdrop
      cases a with
      | fail e => exact absurd ⟨e,rfl⟩ hdrop.2
      | accept n =>
        have he := (idle_iff h).mp hi
        have hshort : n < f.content.length := by
          by_contra hle
          exact hw ⟨hdrop.1,hi,n,rfl,by omega⟩
        have hk : (f.content.take n).length = n := by
          rw [List.length_take]
          omega
        obtain ⟨hw,hclosed⟩ := directWrite_file h he hf h0 hlen hsize hdrop.1 n
        rw [hk] at hw
        obtain ⟨d,hd,hacc,hout⟩ := bufferRest_closed hclosed hdrop.1
          (c.directWrite none fd size (.accept n)).2 reads
        refine ⟨d,n,?_,hshort,?_⟩
        · rw [sendFile_rest h reads hfd (tryFirst_idle hi _ _ _ _) ?_ hw.noFault]
          · exact hd
          · rw [hw.remaining]
            omega
        · rw [hacc,hout,hw.accepted,hw.output,he,List.append_nil,List.append_nil]
  · refine ⟨c,0,?_,hcut,by simp⟩
    exact sendFile_done h reads hfd (tryFirst_busy hi _ _ _ _) rfl

theorem xopen_fresh {fd : Int} (h0 : 0 ≤ fd) (hfd : fd ≠ c.channel.fd) (hf : c.files fd = none)
    (content : Bytes) :
    (c.step (.call (.xopen fd content))).Returns
      ({ c with files := Function.update c.files fd (some { content := content }) }.act
        (.file .opened fd)) := by
  unfold step UserCall.apply
  dsimp only
  rw [if_pos ⟨h0,hfd,hf⟩,Prog.returns_pure]

theorem xopen_returns (h : Streaming sockfd c) (fd : Int) (content : Bytes) :
    ∃ d, (c.step (.call (.xopen fd content))).Returns d ∧ Streaming sockfd d ∧
      Carries c d [] := by
  by_cases hfd : 0 ≤ fd ∧ fd ≠ c.channel.fd ∧ c.files fd = none
  · refine ⟨_,xopen_fresh hfd.1 hfd.2.1 hfd.2.2 content,?_,[],by simp [Fifo.Lossless],rfl,?_,rfl⟩
    · exact act_streaming (files_streaming h _) trivial (by simp)
    · exact (List.append_nil _).symm
  · refine ⟨c,?_,h,Carries.refl c⟩
    unfold step UserCall.apply
    dsimp only
    rw [if_neg hfd,Prog.returns_pure]

theorem step_mixed {e : Event} (he : MixedEvent e) (hf : FileReady c e) (hw : TakenWhole c e)
    (h : Streaming sockfd c) (hd : (c.step e).Returns d) :
    Streaming sockfd d ∧ Carries c d (c.offered e) := by
  have same {m : Bytes} (hr : ∃ d, (c.step e).Returns d ∧ Streaming sockfd d ∧ Carries c d m) :
      Streaming sockfd d ∧ Carries c d m := by
    obtain ⟨d',hd',hs⟩ := hr
    rwa [hd'.unique hd] at hs
  cases he with
  | send m a ha => exact (send_ensures h m ha).result hd
  | sendFile fd size a reads _ => exact same (sendFile_whole h hf hw)
  | xopen fd content => exact same (xopen_returns h fd content)
  | handleWrite a => exact same (handleWrite_returns h a)

theorem step_cut {e : Event} (he : MixedEvent e) (hf : FileReady c e) (hw : ¬ TakenWhole c e)
    (h : Streaming sockfd c) :
    ∃ d, (c.step e).Returns d ∧
      d.accepted++d.outputBuffer.contents ≠
        c.accepted++c.outputBuffer.contents++c.offered e := by
  cases he with
  | send m a _ => exact absurd trivial hw
  | xopen fd content => exact absurd trivial hw
  | handleWrite a => exact absurd trivial hw
  | sendFile fd size a reads _ =>
    obtain ⟨d,k,hd,hk,hs⟩ := sendFile_cut h hf hw
    refine ⟨d,hd,fun hfull => ?_⟩
    rw [hs] at hfull
    have hl := congrArg List.length (List.append_cancel_left hfull)
    rw [List.length_take] at hl
    omega

theorem sends_whole {es : List Event} {sent : Bytes} (hrun : Sends c es sent d)
    (hes : ∀ e∈es, MixedEvent e) (hf : Steps FileReady c es) (hw : Steps TakenWhole c es)
    (h : Streaming sockfd c) : Carries c d sent := by
  induction hrun with
  | nil c => exact Carries.refl c
  | cons hd _ ih =>
    obtain ⟨hs,hc⟩ := step_mixed (hes _ List.mem_cons_self) hf.1 hw.1 h hd
    exact hc.trans (ih (fun f hf => hes f (List.mem_cons_of_mem _ hf)) (hf.2 _ hd) (hw.2 _ hd) hs)

theorem Steps.of_append {P : Conn → Event → Prop} {es fs : List Event}
    (h : Steps P c (es++fs)) : Steps P c es := by
  induction es generalizing c with
  | nil => trivial
  | cons e es ih => exact ⟨h.1,fun d hd => ih (h.2 d hd)⟩

/-- At every point of the run the stream is what was offered. -/
def Intact (c : Conn) (es : List Event) : Prop :=
  ∀ before after sent d, es = before++after → Sends c before sent d →
    d.accepted++d.outputBuffer.contents = c.accepted++c.outputBuffer.contents++sent

theorem Intact.tail {e : Event} {es : List Event} (h : Intact c (e::es))
    (hd : (c.step e).Returns d) : Intact d es := by
  intro before after sent f hes hrun
  have h1 := h [e] es _ d rfl (.cons hd (.nil d))
  have h2 := h (e::before) after _ f (by rw [hes]; rfl) (.cons hd hrun)
  rw [h2,h1,List.append_nil]
  simp only [List.append_assoc]

theorem intact_iff {es : List Event} (hes : ∀ e∈es, MixedEvent e) (hf : Steps FileReady c es)
    (h : Streaming sockfd c) : Intact c es ↔ Steps TakenWhole c es := by
  constructor
  · intro hi
    induction es generalizing c with
    | nil => trivial
    | cons e es ih =>
      have he := hes e List.mem_cons_self
      have hw : TakenWhole c e := by
        by_contra hw
        obtain ⟨d,hd,hne⟩ := step_cut he hf.1 hw h
        have hs := hi [e] es _ d rfl (.cons hd (.nil d))
        rw [List.append_nil] at hs
        exact hne hs
      refine ⟨hw,fun d hd => ?_⟩
      exact ih (fun f hf => hes f (List.mem_cons_of_mem e hf)) (hf.2 d hd)
        (step_mixed he hf.1 hw h hd).1 (hi.tail hd)
  · intro hw before after sent d heq hrun
    subst heq
    exact (sends_whole hrun (fun e he => hes e (List.mem_append_left after he)) hf.of_append
      hw.of_append h).stream

/-- Mixed sends keep the stream at every point of a run exactly when every file is sent
while nothing waits, from a descriptor other than `0`, and is taken whole at once. -/
theorem mixed_stream_iff (sockfd : Int) (reading writeComplete : Bool) (input output : Mem)
    (es : List Event) (hes : ∀ e∈es, MixedEvent e)
    (hf : Steps FileReady (connected sockfd reading writeComplete input output) es) :
    (∀ before after sent c, es = before++after →
      Sends (connected sockfd reading writeComplete input output) before sent c →
      c.accepted++c.outputBuffer.contents = sent) ↔
    Steps TakenWhole (connected sockfd reading writeComplete input output) es := by
  have hout := NetBuffer.create_holds (by decide : (1:Int) ≤ 4096) output
  have hnil : (connected sockfd reading writeComplete input output).accepted++
      (connected sockfd reading writeComplete input output).outputBuffer.contents = [] :=
    hout.contents_eq
  have hi := intact_iff hes hf (connected_streaming sockfd reading writeComplete input output)
  rw [Intact] at hi
  rwa [hnil] at hi

def oneFile (n : Nat) : List Event :=
  [.call (.xopen 7 [1,2]),.call (.sendFile 7 2 (.accept n) [])]

theorem oneFile_mixed (n : Nat) : ∀ e∈oneFile n, MixedEvent e := by
  simp only [oneFile,List.forall_mem_cons]
  exact ⟨.xopen _ _,.sendFile _ _ _ _ trivial,by simp⟩

theorem oneFile_ready (n : Nat) :
    Steps FileReady (connected 5 false true (fun _ => 0) fun _ => 0) (oneFile n) := by
  refine ⟨trivial,fun d hd => ⟨?_,fun _ _ => trivial⟩⟩
  have hopened := xopen_fresh (c := connected 5 false true (fun _ => 0) fun _ => 0)
    (by decide : (0:Int) ≤ 7) (by decide) rfl [1,2]
  cases hopened.unique hd
  exact ⟨by decide,by decide,by decide,⟨[1,2],0⟩,rfl,rfl,rfl⟩

theorem mixed_stream_iff_oneFile :
    (∀ before after sent c, oneFile 2 = before++after →
      Sends (connected 5 false true (fun _ => 0) fun _ => 0) before sent c →
      c.accepted++c.outputBuffer.contents = sent) ↔
    Steps TakenWhole (connected 5 false true (fun _ => 0) fun _ => 0) (oneFile 2) :=
  mixed_stream_iff 5 false true _ _ (oneFile 2) (oneFile_mixed 2) (oneFile_ready 2)

theorem mixed_stream_cut :
    (∀ e∈oneFile 1, MixedEvent e) ∧
    Steps FileReady (connected 5 false true (fun _ => 0) fun _ => 0) (oneFile 1) ∧
    ∃ c, Sends (connected 5 false true (fun _ => 0) fun _ => 0) (oneFile 1) [1,2] c ∧
      c.accepted++c.outputBuffer.contents = [1] :=
  ⟨oneFile_mixed 1,oneFile_ready 1,_,.cons ⟨30,rfl⟩ (.cons ⟨30,rfl⟩ (.nil _)),rfl⟩

end Conn
end AdlServer.Net
