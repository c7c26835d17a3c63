import AdlServer.SendStream

/-! The write side of an open connection, in whichever of its two states: what sending and
flushing do to the trace, to the watch for `EPOLLOUT` and to the bytes in between. -/
namespace AdlServer.Net
open Program Memory Cpp

/-- The calls of `shutdownWrite` on the socket: what was buffered, and what the kernel had
accepted. -/
def shutdowns (t : List Act) : List (Int×Bytes) := t.filterMap fun
  | .shutdownWrite n s => some (n,s)
  | _ => none

@[simp] theorem shutdowns_append (t u : List Act) : shutdowns (t++u) = shutdowns t++shutdowns u :=
  List.filterMap_append

theorem shutdowns_eq_nil {P : Act → Prop} (hP : ∀ n s, ¬ P (.shutdownWrite n s)) {t : List Act}
    (h : ∀ a∈t, P a) : shutdowns t = [] := by
  refine List.filterMap_eq_nil_iff.mpr fun a ha => ?_
  cases a with
  | shutdownWrite n s => exact absurd (h _ ha) (hP n s)
  | addConnect => rfl
  | setState s => rfl
  | wrote s => rfl
  | file op fd => rfl
  | writeComplete n => rfl
  | closeCallback => rfl
  | connectDestroyed s => rfl

inductive Sending (fd : Int) : Act → Prop where
  | wrote (s : Bytes) : Sending fd (.wrote s)
  | file (op : FileOp) : Sending fd (.file op fd)
  | writeComplete (n : Int) : Sending fd (.writeComplete n)

inductive Mute : Act → Prop where
  | addConnect : Mute .addConnect
  | setState (s : StateE) : Mute (.setState s)
  | closeCallback : Mute .closeCallback
  | connectDestroyed (s : StateE) : Mute (.connectDestroyed s)

theorem not_sending_shutdownWrite {fd : Int} (n : Int) (s : Bytes) :
    ¬ Sending fd (.shutdownWrite n s) := by
  intro h
  cases h

theorem not_mute_shutdownWrite (n : Int) (s : Bytes) : ¬ Mute (.shutdownWrite n s) := by
  intro h
  cases h

theorem sending_unclosed {fd : Int} {a : Act} (h : Sending fd a) : a ≠ .closeCallback := by
  cases h <;> simp

namespace Conn
variable {c d e : Conn} {sockfd fd : Int} {P : Act → Prop}

def Grows (P : Act → Prop) (c d : Conn) : Prop := ∃ acts, d.trace = c.trace++acts ∧ ∀ a∈acts, P a

theorem Grows.of_eq (ht : d.trace = c.trace) : Grows P c d :=
  ⟨[],by rw [ht,List.append_nil],by simp⟩

theorem Grows.snoc {a : Act} (ht : d.trace = c.trace++[a]) (ha : P a) : Grows P c d :=
  ⟨[a],ht,fun _ hb => List.mem_singleton.mp hb ▸ ha⟩

theorem Grows.trans (h : Grows P c d) (h' : Grows P d e) : Grows P c e := by
  obtain ⟨t,ht,hall⟩ := h
  obtain ⟨u,hu,hall'⟩ := h'
  refine ⟨t++u,?_,fun a ha => ?_⟩
  · rw [hu,ht,List.append_assoc]
  · cases List.mem_append.mp ha with
    | inl ha => exact hall a ha
    | inr ha => exact hall' a ha

theorem Grows.mono {Q : Act → Prop} (h : Grows P c d) (hPQ : ∀ a, P a → Q a) : Grows Q c d := by
  obtain ⟨t,ht,hall⟩ := h
  exact ⟨t,ht,fun a ha => hPQ a (hall a ha)⟩

theorem Grows.not_mem {a : Act} (h : Grows P c d) (ha : ¬ P a) (hc : a∉c.trace) : a∉d.trace := by
  obtain ⟨t,ht,hall⟩ := h
  rw [ht,List.mem_append,not_or]
  exact ⟨hc,fun hm => ha (hall a hm)⟩

theorem Grows.shutdowns (h : Grows P c d) (hP : ∀ n s, ¬ P (.shutdownWrite n s)) :
    shutdowns d.trace = shutdowns c.trace := by
  obtain ⟨t,ht,hall⟩ := h
  rw [ht,shutdowns_append,shutdowns_eq_nil hP hall,List.append_nil]

def Shuts (c d : Conn) : Prop :=
  ∃ acts, d.trace = c.trace++acts++[.shutdownWrite 0 d.accepted] ∧ AdlServer.Net.shutdowns acts = []

theorem Shuts.shutdowns (h : Shuts c d) :
    shutdowns d.trace = shutdowns c.trace++[(0,d.accepted)] := by
  obtain ⟨acts,ht,hacts⟩ := h
  rw [ht,shutdowns_append,shutdowns_append,hacts,List.append_nil]
  rfl

theorem Shuts.of_same (h : Shuts e d) (ht : Grows P c e) (hP : ∀ n s, ¬ P (.shutdownWrite n s)) :
    Shuts c d := by
  obtain ⟨acts,hd,hacts⟩ := h
  obtain ⟨t,he,hall⟩ := ht
  refine ⟨t++acts,?_,?_⟩
  · rw [hd,he]
    simp only [List.append_assoc]
  · rw [shutdowns_append,shutdowns_eq_nil hP hall,hacts]
    rfl

structure SentOnly (fd : Int) (c d : Conn) : Prop where
  state : d.state = c.state
  trace : Grows (Sending fd) c d

theorem SentOnly.of_eq (hs : d.state = c.state) (ht : d.trace = c.trace) : SentOnly fd c d :=
  ⟨hs,.of_eq ht⟩

theorem SentOnly.trans (h : SentOnly fd c d) (h' : SentOnly fd d e) : SentOnly fd c e :=
  ⟨h'.state.trans h.state,h.trace.trans h'.trace⟩

theorem SentOnly.snoc {a : Act} (hs : d.state = c.state) (ht : d.trace = c.trace++[a])
    (ha : Sending fd a) : SentOnly fd c d := ⟨hs,.snoc ht ha⟩

theorem SentOnly.shutdowns (h : SentOnly fd c d) : shutdowns d.trace = shutdowns c.trace :=
  h.trace.shutdowns not_sending_shutdownWrite

theorem write_sentOnly (c : Conn) (m : Bytes) (answer : WriteAnswer) :
    SentOnly fd c (c.write m answer).1 := by
  cases answer with
  | accept n => exact .snoc rfl rfl (.wrote _)
  | fail e => exact .snoc rfl rfl (.wrote _)

theorem sendfile_sentOnly (c : Conn) (fd : Int) (count : Nat) (answer : WriteAnswer) :
    SentOnly fd c (c.sendfile fd count answer).1 := by
  have hc : SentOnly fd c (c.act (.file .sendfile fd)) := .snoc rfl rfl (.file _)
  unfold sendfile
  dsimp only
  cases hf : (c.act (.file .sendfile fd)).files fd with
  | none => exact hc
  | some f =>
    cases answer with
    | fail e => exact hc
    | accept n => exact hc.trans (.snoc rfl rfl (.wrote _))

theorem close_sentOnly (c : Conn) (fd : Int) : SentOnly fd c (c.close fd) :=
  .snoc rfl rfl (.file _)

theorem queueWriteComplete_sentOnly (fd : Int) (c : Conn) : SentOnly fd c c.queueWriteComplete :=
  queueWriteComplete_cases (.of_eq rfl rfl) (.snoc rfl rfl (.writeComplete _))

theorem directWrite_sentOnly (c : Conn) (message : Option Bytes) (fd size : Int)
    (answer : WriteAnswer) : SentOnly fd c (c.directWrite message fd size answer).1 :=
  directWrite_rule (P := fun d => SentOnly fd c d) (sendfile_sentOnly c fd _ answer)
    (write_sentOnly c _ answer) (fun d hd => hd.trans (queueWriteComplete_sentOnly fd d))
    fun d hd => hd.trans (close_sentOnly d fd)

theorem bufferRest_sentOnly (c : Conn) (message : Option Bytes) (fd : Int) (sent : Sent)
    (reads : List FileAnswer) :
    Prog.Ensures (c.bufferRest message fd sent reads) (SentOnly fd c) fun _ => True := by
  refine Prog.Ensures.bind (Q := SentOnly fd c) ?_ fun d hd => Prog.ensures_pure ?_
  · by_cases hm : fileMode message fd
    · rw [if_pos hm]
      refine (Prog.ensures_true _).bind fun _ _ => Prog.ensures_pure ?_
      have hread : SentOnly fd c (c.act (.file .read fd)) := .snoc rfl rfl (.file _)
      exact hread.trans (.snoc rfl rfl (.file .close))
    · rw [if_neg hm]
      exact (Prog.ensures_true _).bind fun _ _ => Prog.ensures_pure (.of_eq rfl rfl)
  · split_ifs
    · exact hd.trans (.of_eq rfl rfl)
    · exact hd

theorem tryFirst_sentOnly (c : Conn) (message : Option Bytes) (fd size : Int)
    (answer : WriteAnswer) : SentOnly fd c (c.tryFirst message fd size answer).1 := by
  by_cases hi : c.idle
  · rw [tryFirst_idle hi]
    exact directWrite_sentOnly c message fd size answer
  · rw [tryFirst_busy hi]
    exact .of_eq rfl rfl

theorem sendInLoop_sentOnly (c : Conn) (message : Option Bytes) (fd size : Int)
    (answer : WriteAnswer) (reads : List FileAnswer) :
    Prog.Ensures (c.sendInLoop message fd size answer reads) (SentOnly fd c) fun _ => True := by
  by_cases hd : c.state = .kDisconnected
  · rw [sendInLoop]
    rw [if_pos hd]
    exact Prog.ensures_pure (.of_eq rfl rfl)
  · have hw := tryFirst_sentOnly c message fd size answer
    refine sendInLoop_halves hd trivial (fun _ => ?_) fun _ => hw
    exact (bufferRest_sentOnly _ message fd _ reads).mono (fun _ => hw.trans) fun _ => id

theorem sendInLoop_returns (hs : c.state ≠ .kDisconnected) {message : Option Bytes}
    {size : Int} {answer : WriteAnswer} {reads : List FileAnswer}
    (hd : (c.sendInLoop message fd size answer reads).Returns d) :
    (c.tryFirst message fd size answer).2.left = true ∧
        ((c.tryFirst message fd size answer).1.bufferRest message fd
          (c.tryFirst message fd size answer).2 reads).Returns d ∨
      (c.tryFirst message fd size answer).2.left = false ∧
        d = (c.tryFirst message fd size answer).1 := by
  rw [sendInLoop_eq hs] at hd
  obtain ⟨_,_,hd'⟩ := (Prog.returns_bind _ _ _).mp hd
  cases hl : (c.tryFirst message fd size answer).2.left with
  | true =>
    rw [hl,if_pos rfl] at hd'
    exact .inl ⟨rfl,hd'⟩
  | false =>
    rw [hl,if_neg (by simp)] at hd'
    exact .inr ⟨rfl,(Prog.returns_pure _ _).mp hd'⟩

/-! The bytes alone, on any connection whose output buffer is sound. -/

structure Passes (c d : Conn) (m : Bytes) : Prop where
  output : d.outputBuffer.Wf
  stream : d.accepted++d.outputBuffer.contents = c.accepted++c.outputBuffer.contents++m

theorem Passes.refl (h : c.outputBuffer.Wf) : Passes c c [] := ⟨h,by simp⟩

theorem Passes.trans {m n : Bytes} (h : Passes c d m) (h' : Passes d e n) : Passes c e (m++n) := by
  refine ⟨h'.output,?_⟩
  rw [h'.stream,h.stream]
  simp only [List.append_assoc]

theorem contents_of_idle (h : c.outputBuffer.Wf) (hi : c.idle = true) :
    c.outputBuffer.contents = [] := by
  have hlen := h.length_contents
  have hr : c.outputBuffer.readable = 0 := by
    rw [idle] at hi
    simp only [Bool.and_eq_true,decide_eq_true_eq] at hi
    exact hi.2
  exact List.eq_nil_of_length_eq_zero (by omega)

theorem tryFirst_tried (h : c.outputBuffer.Wf) (m : Bytes) {a : WriteAnswer} (ha : NotFatal a) :
    ∃ k, (k ≠ 0 → c.outputBuffer.contents = []) ∧
      (c.tryFirst (some m) (-1) 0 a).1.outputBuffer = c.outputBuffer ∧
      (c.tryFirst (some m) (-1) 0 a).1.accepted = c.accepted++m.take k ∧
      (c.tryFirst (some m) (-1) 0 a).2.nwrote = k ∧
      (c.tryFirst (some m) (-1) 0 a).2.remaining = m.length-k ∧
      (c.tryFirst (some m) (-1) 0 a).2.faultError = false := by
  by_cases hi : c.idle
  · have ht := directWrite_tried c m a
    rw [tryFirst_idle hi]
    exact ⟨a.taken m,fun _ => contents_of_idle h hi,ht.output,ht.accepted,ht.nwrote,
      ht.remaining,ht.fault.mpr ha⟩
  · rw [tryFirst_busy hi]
    exact ⟨0,fun hk => absurd rfl hk,rfl,by simp,rfl,rfl,rfl⟩

theorem sendInLoop_passes (h : c.outputBuffer.Wf) (hs : c.state ≠ .kDisconnected) (m : Bytes)
    {a : WriteAnswer} (ha : NotFatal a) :
    Prog.Ensures (c.sendInLoop (some m) (-1) 0 a []) (Passes c · m) fun _ => True := by
  obtain ⟨k,hk,hout,hacc,hn,hrem,hfault⟩ := tryFirst_tried h m ha
  refine sendInLoop_halves hs trivial (fun _ => ?_) fun hleft => ?_
  · refine (bufferRest_appends (hout ▸ h) m _).mono (fun d hd => ?_) fun _ _ => trivial
    obtain ⟨e,b,hb,he,hd⟩ := hd
    rw [hn,hout] at hb
    have hout' : d.outputBuffer = b := by rw [hd,watch_outputBuffer,he]
    have hacc' : d.accepted = c.accepted++m.take k := by rw [hd,watch_accepted,he,hacc]
    exact ⟨hout' ▸ hb.wf,(carries_split hk hacc' (hout' ▸ hb.contents_eq)).stream⟩
  · have hdrop : m.drop k = [] := by
      apply List.drop_eq_nil_iff.mpr
      simp [Sent.left,hfault,hrem] at hleft
      omega
    refine ⟨hout ▸ h,(carries_split hk hacc ?_).stream⟩
    rw [hout,hdrop,List.append_nil]

theorem send_passes (h : c.outputBuffer.Wf) (hs : c.state = .kConnected) {m : Bytes}
    {a : WriteAnswer} (ha : NotFatal a) (hd : (c.send m a).Returns d) :
    Passes c d m ∧ SentOnly (-1) c d := by
  rw [send] at hd
  rw [if_pos hs] at hd
  exact ⟨(sendInLoop_passes h (by simp [hs]) m ha).result hd,
    (sendInLoop_sentOnly c _ _ _ _ _).result hd⟩

def moved (c : Conn) (s : Bytes) (b : NetBuffer) : Conn :=
  { { c with accepted := c.accepted++s }.act (.wrote s) with outputBuffer := b }

inductive WriteStep (c : Conn) : Conn → Prop where
  | idle (hw : c.channel.isWriting = false) : WriteStep c c
  | failed (hw : c.channel.isWriting = true) : WriteStep c (c.act (.wrote []))
  | moved {s rest : Bytes} {b : NetBuffer} (hw : c.channel.isWriting = true)
    (hs : c.outputBuffer.contents = s++rest) (hb : b.Holds rest) (hleft : s = [] ∨ rest ≠ []) :
    WriteStep c (c.moved s b)
  | flushed {s : Bytes} {b : NetBuffer} (hw : c.channel.isWriting = true)
    (hs : c.outputBuffer.contents = s) (hne : s ≠ []) (hb : b.Holds []) :
    WriteStep c (c.moved s b).flushed

theorem handleWrite_steps (h : c.outputBuffer.Wf) (a : WriteAnswer) :
    Prog.Ensures (c.handleWrite a) (WriteStep c) fun _ => True := by
  rw [handleWrite]
  cases hw : c.channel.isWriting with
  | false =>
    rw [if_neg (by simp)]
    exact Prog.ensures_pure (.idle hw)
  | true =>
    rw [if_pos rfl]
    cases a with
    | fail e => exact Prog.ensures_pure (.failed hw)
    | accept n =>
      have hlen := h.length_contents
      have hsplit : c.outputBuffer.contents = c.outputBuffer.contents.take n++
          c.outputBuffer.contents.drop (c.outputBuffer.contents.take n).length := by
        have hk : c.outputBuffer.contents.take (c.outputBuffer.contents.take n).length =
            c.outputBuffer.contents.take n := by simp
        have ht := List.take_append_drop (c.outputBuffer.contents.take n).length
          c.outputBuffer.contents
        rw [hk] at ht
        exact ht.symm
      dsimp only [write]
      generalize c.outputBuffer.contents.take n = s at hsplit ⊢
      by_cases hpos : 0 < s.length
      · have hne := List.length_pos_iff.mp hpos
        rw [if_pos hpos]
        refine ((NetBuffer.retrieve_ensures h (Int.natCast_nonneg s.length)).mono (fun _ => id)
          fun _ _ => trivial).bind fun b hb => Prog.ensures_pure ?_
        rw [Int.toNat_natCast] at hb
        have hbl := hb.wf.length_contents
        rw [hb.contents_eq] at hbl
        by_cases hr : b.readable = 0
        · have hnil : c.outputBuffer.contents.drop s.length = [] :=
            List.eq_nil_of_length_eq_zero (by omega)
          rw [hnil,List.append_nil] at hsplit
          rw [if_pos hr]
          exact .flushed hw hsplit hne (hnil ▸ hb)
        · have hrest : c.outputBuffer.contents.drop s.length ≠ [] := by
            intro hnil
            rw [hnil] at hbl
            exact hr hbl.symm
          rw [if_neg hr]
          exact .moved hw hsplit hb (.inr hrest)
      · have hnil := List.eq_nil_of_length_eq_zero (Nat.eq_zero_of_not_pos hpos)
        rw [if_neg hpos]
        exact Prog.ensures_pure (.moved hw (by simp [hnil]) ⟨h,rfl⟩ (.inl hnil))

theorem moved_at {s : Stage} (h : At sockfd s c) (t : Bytes) {rest : Bytes} {b : NetBuffer}
    (hb : b.Holds rest) : At sockfd s (c.moved t b) := by
  have hat : At sockfd s ({ c with accepted := c.accepted++t }.act (.wrote t)) :=
    @act_at { c with accepted := c.accepted++t } s sockfd { h with } _ trivial
  exact { hat with output := hb.wf }

theorem moved_sentOnly (c : Conn) (t : Bytes) (b : NetBuffer) : SentOnly (-1) c (c.moved t b) :=
  .snoc rfl rfl (.wrote t)

theorem moved_stream {t rest : Bytes} {b : NetBuffer} (ht : c.outputBuffer.contents = t++rest)
    (hb : b.Holds rest) :
    (c.moved t b).accepted++(c.moved t b).outputBuffer.contents =
      c.accepted++c.outputBuffer.contents := by
  have hacc : (c.moved t b).accepted = c.accepted++t := rfl
  have hout : (c.moved t b).outputBuffer.contents = rest := hb.contents_eq
  rw [hacc,hout,ht,List.append_assoc]

/-- The connection is open, and watches to write exactly while something waits. -/
structure Flow (sockfd : Int) (c : Conn) : Prop where
  established : At sockfd .established c
  writing : c.channel.isWriting = true ↔ c.outputBuffer.contents ≠ []

theorem Streaming.flow (h : Streaming sockfd c) : Flow sockfd c := ⟨h.established,h.writing⟩

theorem Flow.not_writing (h : Flow sockfd c) (hw : c.channel.isWriting = false) :
    c.outputBuffer.contents = [] := by
  by_contra hne
  exact absurd ((h.writing.mpr hne).symm.trans hw) (by decide)

theorem readable_of_nil (h : At sockfd .established c) (he : c.outputBuffer.contents = []) :
    c.outputBuffer.readable = 0 := by
  have hlen := h.output.length_contents
  rw [he] at hlen
  exact hlen.symm

theorem shutdownWriteInLoop_shuts (h : Flow sockfd c) (hw : c.channel.isWriting = false) :
    c.shutdownWriteInLoop = c.act (.shutdownWrite 0 c.accepted) := by
  rw [shutdownWriteInLoop]
  rw [hw,readable_of_nil h.established (h.not_writing hw)]
  rfl

theorem disconnecting_flow (h : Flow sockfd c) : Flow sockfd (c.setState .kDisconnecting) :=
  ⟨disconnecting_at h.established,h.writing⟩

theorem shutdown_flow (h : Flow sockfd c) (hs : c.state = .kConnected) :
    Flow sockfd c.shutdown ∧ c.shutdown.state = .kDisconnecting ∧
      c.shutdown.accepted++c.shutdown.outputBuffer.contents =
        c.accepted++c.outputBuffer.contents ∧
      (Grows Mute c c.shutdown ∨ c.shutdown.channel.isWriting = false ∧ Shuts c c.shutdown) := by
  have hf := disconnecting_flow h
  have hset : Grows Mute c (c.setState .kDisconnecting) := .snoc rfl (.setState _)
  rw [shutdown]
  rw [if_pos hs]
  cases hw : (c.setState .kDisconnecting).channel.isWriting with
  | true =>
    have he : (c.setState .kDisconnecting).shutdownWriteInLoop = c.setState .kDisconnecting :=
      if_neg (by simp [hw])
    rw [he]
    exact ⟨hf,rfl,rfl,.inl hset⟩
  | false =>
    rw [shutdownWriteInLoop_shuts hf hw]
    have hshuts : Shuts (c.setState .kDisconnecting)
        ((c.setState .kDisconnecting).act (.shutdownWrite 0 c.accepted)) :=
      ⟨[],by rw [List.append_nil]; rfl,rfl⟩
    refine ⟨⟨act_at hf.established trivial,hf.writing⟩,rfl,rfl,.inr ⟨hw,?_⟩⟩
    exact hshuts.of_same hset not_mute_shutdownWrite

theorem forceClose_flow (h : Flow sockfd c) :
    Flow sockfd c.forceClose ∧ c.forceClose.state = .kDisconnecting ∧
      c.forceClose.channel = c.channel ∧
      c.forceClose.accepted++c.forceClose.outputBuffer.contents =
        c.accepted++c.outputBuffer.contents ∧
      Grows Mute c c.forceClose := by
  have he : c.forceClose = (c.setState .kDisconnecting).queueInLoop .forceCloseInLoop :=
    if_pos h.established.state
  have hf := disconnecting_flow h
  rw [he]
  exact ⟨⟨queue_at hf.established (.inr rfl),hf.writing⟩,rfl,rfl,rfl,.snoc rfl (.setState _)⟩

theorem bufferRest_flow (h : Flow sockfd c) {m : Bytes} {sent : Sent}
    (hs : m.drop sent.nwrote ≠ []) :
    Prog.Ensures (c.bufferRest (some m) (-1) sent []) (Flow sockfd) fun _ => True := by
  refine (bufferRest_appends h.established.output m sent).mono (fun d hd => ?_) fun _ _ => trivial
  obtain ⟨e,b,hb,he,hd⟩ := hd
  have hat : At sockfd .established e := by
    rw [he]
    exact { h.established with output := hb.wf }
  have hne : e.outputBuffer.contents ≠ [] := by
    rw [he,hb.contents_eq]
    simp [hs]
  subst hd
  cases hw : e.channel.isWriting with
  | true => exact ⟨hat,iff_of_true hw hne⟩
  | false => exact ⟨enableWriting_at hat,iff_of_true (enableWriting_writes e) hne⟩

theorem tryFirst_flow (h : Flow sockfd c) (m : Bytes) (a : WriteAnswer) :
    Flow sockfd (c.tryFirst (some m) (-1) 0 a).1 ∧
      (c.tryFirst (some m) (-1) 0 a).2.remaining =
        (m.drop (c.tryFirst (some m) (-1) 0 a).2.nwrote).length := by
  by_cases hi : c.idle
  · have ht := directWrite_tried c m a
    rw [tryFirst_idle hi]
    refine ⟨⟨directWrite_at h.established _ _ _ _,?_⟩,?_⟩
    · rw [ht.channel,ht.output]
      exact h.writing
    · rw [ht.remaining,ht.nwrote,List.length_drop]
  · rw [tryFirst_busy hi]
    exact ⟨h,rfl⟩

theorem sendInLoop_flow (h : Flow sockfd c) (m : Bytes) (a : WriteAnswer) :
    Prog.Ensures (c.sendInLoop (some m) (-1) 0 a []) (Flow sockfd) fun _ => True := by
  by_cases hd : c.state = .kDisconnected
  · rw [sendInLoop]
    rw [if_pos hd]
    exact Prog.ensures_pure h
  · obtain ⟨hflow,hrest⟩ := tryFirst_flow h m a
    refine sendInLoop_halves hd trivial (fun hleft => ?_) fun _ => hflow
    refine bufferRest_flow hflow fun hnil => ?_
    rw [hnil] at hrest
    exact (Sent.left_iff.mp hleft).2 hrest

/-- What `handleWrite` leaves: the bytes have moved on, and the write side is shut exactly
if the connection is closing and the last of them is gone. -/
structure Flushes (sockfd : Int) (c d : Conn) : Prop where
  flow : Flow sockfd d
  state : d.state = c.state
  stream : d.accepted++d.outputBuffer.contents = c.accepted++c.outputBuffer.contents
  trace : Grows (Sending (-1)) c d ∨
    c.state = .kDisconnecting ∧ d.channel.isWriting = false ∧ Shuts c d

theorem Flushes.of_sent (h : Flow sockfd d) (hs : SentOnly (-1) c d)
    (hstream : d.accepted++d.outputBuffer.contents = c.accepted++c.outputBuffer.contents) :
    Flushes sockfd c d := ⟨h,hs.state,hstream,.inl hs.trace⟩

theorem Flushes.of_same (h : Flushes sockfd e d) (hs : SentOnly (-1) c e)
    (hstream : e.accepted++e.outputBuffer.contents = c.accepted++c.outputBuffer.contents) :
    Flushes sockfd c d := by
  obtain ⟨hflow,hst,hstr,htrace⟩ := h
  refine ⟨hflow,hst.trans hs.state,hstr.trans hstream,?_⟩
  cases htrace with
  | inl ht => exact .inl (hs.trace.trans ht)
  | inr ht =>
    exact .inr ⟨hs.state ▸ ht.1,ht.2.1,ht.2.2.of_same hs.trace not_sending_shutdownWrite⟩

theorem flushed_frame (c : Conn) : c.flushed.state = c.state ∧ c.flushed.accepted = c.accepted ∧
    c.flushed.outputBuffer = c.outputBuffer ∧ Grows (· ≠ .closeCallback) c c.flushed := by
  have hq := queueWriteComplete_sentOnly (-1) (c.onChannel Channel.disableWriting)
  have hg : Grows (· ≠ .closeCallback) c (c.onChannel Channel.disableWriting).queueWriteComplete :=
    hq.trace.mono fun _ => sending_unclosed
  have hst := hq.state
  have hacc := queueWriteComplete_accepted (c.onChannel Channel.disableWriting)
  have hout := queueWriteComplete_outputBuffer (c.onChannel Channel.disableWriting)
  unfold flushed shutdownWriteInLoop
  generalize (c.onChannel Channel.disableWriting).queueWriteComplete = d at hg hst hacc hout ⊢
  dsimp only
  split_ifs
  · exact ⟨hst,hacc,hout,hg.trans (.snoc rfl (by simp))⟩
  · exact ⟨hst,hacc,hout,hg⟩
  · exact ⟨hst,hacc,hout,hg⟩

theorem flushed_flushes (h : At sockfd .established c) (he : c.outputBuffer.contents = []) :
    Flushes sockfd c c.flushed := by
  have hoff := disableWriting_idle c
  have hoffOnly : SentOnly (-1) c (c.onChannel Channel.disableWriting) := .of_eq rfl rfl
  have hq := hoffOnly.trans (queueWriteComplete_sentOnly (-1) _)
  have hat := queueWriteComplete_at (disableWriting_at h)
  have hchan : (c.onChannel Channel.disableWriting).queueWriteComplete.channel.isWriting = false :=
    @queueWriteComplete_cases _ (fun d => d.channel.isWriting = false) hoff hoff
  have hout := queueWriteComplete_outputBuffer (c.onChannel Channel.disableWriting)
  have hacc := queueWriteComplete_accepted (c.onChannel Channel.disableWriting)
  unfold flushed
  generalize (c.onChannel Channel.disableWriting).queueWriteComplete = d at hq hat hchan hout hacc
  have hnil : d.outputBuffer.contents = [] := by
    rw [hout]
    exact he
  have hd : Flow sockfd d := ⟨hat,by rw [hchan,hnil]; simp⟩
  have hstream : d.accepted++d.outputBuffer.contents = c.accepted++c.outputBuffer.contents := by
    rw [hout,hacc]
    rfl
  dsimp only
  by_cases hs : d.state = .kDisconnecting
  · rw [if_pos hs,shutdownWriteInLoop_shuts hd hchan]
    have hshuts : Shuts d (d.act (.shutdownWrite 0 d.accepted)) :=
      ⟨[],by rw [List.append_nil]; rfl,rfl⟩
    refine ⟨⟨act_at hat trivial,hd.writing⟩,hq.state,hstream,.inr ⟨hq.state ▸ hs,hchan,?_⟩⟩
    exact hshuts.of_same hq.trace not_sending_shutdownWrite
  · rw [if_neg hs]
    exact .of_sent hd hq hstream

theorem handleWrite_flushes (h : Flow sockfd c) (a : WriteAnswer) :
    Prog.Ensures (c.handleWrite a) (Flushes sockfd c) fun _ => True := by
  refine (handleWrite_steps h.established.output a).mono (fun d hd => ?_) fun _ => id
  cases hd with
  | idle hw => exact .of_sent h (.of_eq rfl rfl) rfl
  | failed hw =>
    exact .of_sent ⟨act_at h.established trivial,h.writing⟩ (.snoc rfl rfl (.wrote [])) rfl
  | @moved t rest b hw ht hb hleft =>
    refine .of_sent ⟨moved_at h.established t hb,iff_of_true hw ?_⟩ (moved_sentOnly c t b)
      (moved_stream ht hb)
    have hout : (c.moved t b).outputBuffer.contents = rest := hb.contents_eq
    rw [hout]
    cases hleft with
    | inr hne => exact hne
    | inl hnil =>
      rw [hnil,List.nil_append] at ht
      exact ht ▸ h.writing.mp hw
  | @flushed t b hw ht hne hb =>
    have ht' : c.outputBuffer.contents = t++[] := by rw [ht,List.append_nil]
    exact (flushed_flushes (moved_at h.established t hb) hb.contents_eq).of_same
      (moved_sentOnly c t b) (moved_stream ht' hb)

end Conn
end AdlServer.Net
