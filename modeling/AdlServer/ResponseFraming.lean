import AdlServer.FileDescriptors

/-! What is sent for a request when the kernel takes everything: a head that announces a length,
and the body behind it. -/
namespace AdlServer.Http
open Program Memory Cpp Net Conn
variable {c d : Conn} {sockfd : Int} {sys : System} {request : HttpRequest} {r : HttpRespond}

/-! Decimal numbers. -/

theorem toString_no_cr (n : Nat) : CR∉Cpp.toString n := by
  intro h
  have hd := toString_digits n CR h
  revert hd
  decide

theorem intString_no_cr (x : Int) : CR∉intString x := by
  rw [intString]
  split_ifs
  · intro h
    cases List.mem_cons.mp h with
    | inl h => exact absurd h (by decide)
    | inr h => exact toString_no_cr _ h
  · exact toString_no_cr _

theorem intString_eq_iff (x : Int) (n : Nat) : intString x = Cpp.toString n ↔ x = n := by
  rw [intString]
  by_cases hneg : x < 0
  · rw [if_pos hneg]
    refine iff_of_false (fun h => ?_) (by omega)
    have hd := toString_digits n 45 (h ▸ List.mem_cons_self)
    revert hd
    decide
  · rw [if_neg hneg]
    constructor
    · intro h
      have hv := congrArg digitsValue h
      rw [digitsValue_toString,digitsValue_toString] at hv
      omega
    · intro h
      rw [h,Int.toNat_natCast]

/-! The bytes of a response. -/

def fields (keep : Bool) (len : Bytes) : List (Bytes×Bytes) :=
  [(bytes "Connection",if keep then bytes "keep-alive" else bytes "Close"),
    (bytes "Content-Length",len),(bytes "Content-Type",html)]

def message (request : HttpRequest) (len body : Bytes) : Bytes :=
  request.line.version++[SP]++repString ._200Ok++[CR,LF]++
    (fields (keepsAlive request) len).flatMap serialiseHeader++[CR,LF]++body

theorem message_inj {len len' body body' : Bytes} (h : CR∉len) (h' : CR∉len')
    (he : message request len body = message request len' body') : len = len' ∧ body = body' := by
  simp only [message,fields,List.flatMap_cons,List.flatMap_nil,serialiseHeader,List.append_assoc,
    List.append_cancel_left_eq,List.append_nil,List.cons_append,List.nil_append,
    List.cons.injEq,true_and] at he
  obtain ⟨hl,hb⟩ := before_unique h h' he
  refine ⟨hl,?_⟩
  simpa using hb

theorem message_body (request : HttpRequest) (len body : Bytes) :
    message request len body = message request len []++body := by simp [message]

theorem assign_behind {k v k' v' : Bytes} {m : List (Bytes×Bytes)} (h : ¬ k < k') (hne : k ≠ k') :
    assign k v ((k',v')::m) = (k',v')::assign k v m := by
  rw [assign,if_neg h,if_neg hne]

theorem assign_before {k v k' v' : Bytes} {m : List (Bytes×Bytes)} (h : k < k') :
    assign k v ((k',v')::m) = (k,v)::(k',v')::m := by
  rw [assign,if_pos h]

theorem size_then_type (a n t : Bytes) :
    assign (bytes "Content-Type") t (assign (bytes "Content-Length") n [(bytes "Connection",a)]) =
      [(bytes "Connection",a),(bytes "Content-Length",n),(bytes "Content-Type",t)] := by
  rw [assign_behind (by decide) (by decide),assign,assign_behind (by decide) (by decide),
    assign_behind (by decide) (by decide),assign]

theorem type_then_size (a n t : Bytes) :
    assign (bytes "Content-Length") n (assign (bytes "Content-Type") t [(bytes "Connection",a)]) =
      [(bytes "Connection",a),(bytes "Content-Length",n),(bytes "Content-Type",t)] := by
  rw [assign_behind (by decide) (by decide),assign,assign_behind (by decide) (by decide),
    assign_before (by decide)]

def postRespond (request : HttpRequest) : HttpRespond :=
  savedRespond (({ version := request.line.version } : HttpRespond).addKeepAlive
    (keepsAlive request)) request.line.url

def savedText (url : Bytes) : Bytes := bytes "which your sended have saved as ./source"++url

theorem postRespond_lineHead (request : HttpRequest) :
    (postRespond request).lineHead =
      message request (intString (wrapInt (savedText request.line.url).length)) [] := by
  have hmap : (postRespond request).headMap = fields (keepsAlive request)
      (intString (wrapInt (savedText request.line.url).length)) := type_then_size _ _ _
  rw [HttpRespond.lineHead,hmap,message,List.append_nil]
  rfl

theorem getRespond_lineHead (h : (parseUrl sys request.line.url).state = ._200Ok) :
    (getRespond sys request).lineHead =
      message request (intString (getRespond sys request).size) [] := by
  have hmap : (getRespond sys request).headMap = fields (keepsAlive request)
      (intString (getRespond sys request).size) := size_then_type _ _ _
  have hstate : (getRespond sys request).state = some ._200Ok := congrArg some h
  rw [HttpRespond.lineHead,hmap,hstate,message,List.append_nil]
  rfl

/-! Sending to a kernel that takes everything. -/

def Willing (a : WriteAnswer) (n : Nat) : Prop := ∃ k, a = .accept k ∧ n ≤ k

theorem send_taken (h : Streaming sockfd c) (he : c.outputBuffer.contents = []) {m : Bytes}
    {a : WriteAnswer} (ha : Willing a m.length) :
    ∃ d, (c.send m a).Returns d ∧ Streaming sockfd d ∧ d.outputBuffer = c.outputBuffer ∧
      d.accepted = c.accepted++m := by
  obtain ⟨k,rfl,hk⟩ := ha
  obtain ⟨r,hf,hsend⟩ := send_eq h m (a := .accept k) trivial
  have htaken : c.taken m (.accept k) = m.length := by
    rw [taken,if_pos ((idle_iff h).mpr he),WriteAnswer.taken,List.length_take]
    omega
  have hacc := hf.accepted
  rw [htaken,List.take_length] at hacc
  rw [htaken,List.drop_length,if_neg (by simp)] at hsend
  exact ⟨r.1,hsend ▸ Prog.returns_self _,hf.streaming,hf.output,hacc⟩

theorem sendFile_taken (h : Streaming sockfd c) (he : c.outputBuffer.contents = [])
    {fd size : Int} {content : Bytes} (hfile : c.files fd = some { content := content })
    (hfd : 0 < fd) (h0 : 0 < size) (hlt : size < 2^31) (hle : size ≤ content.length)
    {a : WriteAnswer} (ha : Willing a content.length) (reads : List FileAnswer) :
    ∃ d, (c.sendFile fd size a reads).Returns d ∧
      d.accepted = c.accepted++content.take size.toNat := by
  obtain ⟨k,rfl,hk⟩ := ha
  have hcount : sizeT size = size.toNat := sizeT_of_range (by omega) (by omega)
  have hmin : min k size.toNat = size.toNat := by omega
  have hlen : (content.take size.toNat).length = size.toNat := by
    rw [List.length_take]
    omega
  have hidle := (idle_iff h).mpr he
  have hact : (c.act (.file .sendfile fd)).files fd = some { content := content } := hfile
  have hsent : (c.sendfile fd size.toNat (.accept k)).2 = .ok size.toNat ∧
      (c.sendfile fd size.toNat (.accept k)).1.accepted = c.accepted++content.take size.toNat := by
    unfold sendfile
    simp only [hact,List.drop_zero,hmin,hlen]
    exact ⟨trivial,rfl⟩
  have hnone : sizeT (size-(size.toNat:Int)) = 0 := by
    rw [Int.toNat_of_nonneg (by omega),Int.sub_self]
    rfl
  have hfirst : (c.tryFirst none fd size (.accept k)).2.remaining = 0 ∧
      (c.tryFirst none fd size (.accept k)).1.accepted = c.accepted++content.take size.toNat := by
    rw [tryFirst_idle hidle,directWrite,fileMode_of_ne (by omega),if_pos rfl,hcount]
    generalize c.sendfile fd size.toNat (.accept k) = w at hsent ⊢
    obtain ⟨d,nwrote⟩ := w
    obtain ⟨hn,hacc⟩ := hsent
    dsimp only at hn hacc
    subst hn
    dsimp only
    rw [if_pos rfl,hnone]
    exact ⟨rfl,(told_same d _).accepted.trans hacc⟩
  exact ⟨_,sendFile_done h reads (by omega) rfl hfirst.1,hfirst.2⟩

def sentBody (r : HttpRespond) (content : Bytes) : Bytes :=
  if 0 < r.fd ∧ 0 < r.size then content.take r.size.toNat
  else if r.body.length = sizeT r.size then r.body
  else []

theorem respond_sends (h : Streaming sockfd c) (he : c.outputBuffer.contents = [])
    (content : Bytes) (hfile : 0 < r.fd → c.files r.fd = some { content := content })
    (hlt : r.size < 2^31) (hle : 0 < r.fd → r.size ≤ content.length) {head body : WriteAnswer}
    (hhead : Willing head r.lineHead.length) (hcontent : Willing body content.length)
    (hbody : Willing body r.body.length) (reads : List FileAnswer) :
    ∃ d, (calls (r.respond head body reads) c).Returns d ∧
      d.accepted = c.accepted++(r.lineHead++sentBody r content) := by
  obtain ⟨f,hf,hs,hout,hacc⟩ := send_taken h he hhead
  have he' : f.outputBuffer.contents = [] := by rw [hout,he]
  have hkept (g : Int) (hg : 0 < g) : f.files g = c.files g :=
    (send_head h.state (lineHead_ne_nil r) head hf).files g (by omega)
  have hrest : ∃ d, (calls (if 0 < r.fd ∧ 0 < r.size then [.sendFile r.fd r.size body reads]
      else if r.body.length = sizeT r.size then [.send r.body body] else []) f).Returns d ∧
      d.accepted = f.accepted++sentBody r content := by
    rw [sentBody]
    by_cases hfd : 0 < r.fd ∧ 0 < r.size
    · obtain ⟨d,hd,hacc⟩ := sendFile_taken hs he' ((hkept r.fd hfd.1).trans (hfile hfd.1)) hfd.1
        hfd.2 hlt (hle hfd.1) hcontent reads
      rw [if_pos hfd,if_pos hfd]
      exact ⟨d,(calls_one _ _ _).mpr hd,hacc⟩
    · rw [if_neg hfd,if_neg hfd]
      by_cases hsize : r.body.length = sizeT r.size
      · obtain ⟨d,hd,_,_,hacc⟩ := send_taken hs he' hbody
        rw [if_pos hsize,if_pos hsize]
        exact ⟨d,(calls_one _ _ _).mpr hd,hacc⟩
      · rw [if_neg hsize,if_neg hsize]
        exact ⟨f,Prog.returns_self f,(List.append_nil _).symm⟩
  obtain ⟨d,hd,hacc'⟩ := hrest
  exact ⟨d,hf.bind hd,by rw [hacc',hacc,List.append_assoc]⟩

/-! The claim: the length announced is that of the body. -/

/-- A GET of a regular file of this size, which can be opened. -/
structure GetsFile (c : Conn) (sys : System) (request : HttpRequest) (size : Int) : Prop where
  method : request.line.method = some .GET
  fd : sys.page.fd ≠ -1
  fresh : Fresh c sys.page
  stat : sys.page.stat = some ⟨true,size⟩
  content : (sys.page.content.length:Int) = size

structure TakesFile (sys : System) (request : HttpRequest) : Prop where
  head : Willing sys.head (getRespond sys request).lineHead.length
  body : Willing sys.body sys.page.content.length

structure TakesText (sys : System) (request : HttpRequest) : Prop where
  head : Willing sys.head (postRespond request).lineHead.length
  body : Willing sys.body (savedText request.line.url).length

/-- What has been sent from `c` to `d` is a response that announces its own body. -/
def Framed (request : HttpRequest) (c d : Conn) (body : Bytes) : Prop :=
  d.accepted = c.accepted++message request (Cpp.toString body.length) body

theorem framed_iff {x : Int} {body sent : Bytes}
    (h : d.accepted = c.accepted++(message request (intString x) []++sent)) :
    Framed request c d body ↔ body = sent ∧ x = sent.length := by
  rw [Framed,h,← message_body,List.append_cancel_left_eq]
  constructor
  · intro he
    obtain ⟨hl,hb⟩ := message_inj (intString_no_cr x) (toString_no_cr _) he
    rw [hb]
    exact ⟨rfl,(intString_eq_iff x _).mp hl⟩
  · intro he
    obtain ⟨hb,hx⟩ := he
    rw [hb,(intString_eq_iff x _).mpr hx]

theorem forceClose_calls (kep : Bool) (c : Conn) :
    ∃ d, (calls (if !kep then [.forceClose] else []) c).Returns d ∧ d.accepted = c.accepted := by
  cases kep with
  | true => exact ⟨c,Prog.returns_self c,rfl⟩
  | false =>
    refine ⟨c.forceClose,(calls_one _ _ _).mpr (Prog.returns_self _),?_⟩
    rw [forceClose]
    split_ifs <;> rfl

theorem wrapInt_le {x : Int} (h : 0 ≤ x) : wrapInt x ≤ x := by
  rw [wrapInt,Int.bmod_def]
  split_ifs <;> omega

theorem wrapInt_eq_zero_iff (n : Nat) : wrapInt n = 0 ↔ 2^32 ∣ n := by
  rw [wrapInt,Int.bmod_def]
  split_ifs <;> omega

theorem text_sent_iff (body : Bytes) :
    wrapInt body.length = (sentBody { size := wrapInt body.length, body := body } []).length ↔
      body.length < 2^31 ∨ 2^32 ∣ body.length := by
  rw [sentBody,if_neg (by simp)]
  dsimp only
  by_cases hsmall : body.length < 2^31
  · have hx : wrapInt body.length = body.length := wrapInt_of_range (by omega) (by omega)
    rw [hx,sizeT_nat (by omega),if_pos rfl]
    exact iff_of_true rfl (.inl hsmall)
  · have hlt := wrapInt_lt body.length
    have hdvd := wrapInt_eq_zero_iff body.length
    by_cases hsize : body.length = sizeT (wrapInt body.length)
    · rw [if_pos hsize]
      refine iff_of_false (by omega) fun h => ?_
      have hzero := hdvd.mpr (h.resolve_left hsmall)
      rw [hzero] at hsize
      exact hsmall (by rw [hsize]; decide)
    · rw [if_neg hsize]
      exact ⟨fun h0 => .inr (hdvd.mp h0),fun h => hdvd.mpr (h.resolve_left hsmall)⟩

theorem post_framed_iff (h : Streaming sockfd c) (he : c.outputBuffer.contents = [])
    (hm : request.line.method = some .POST) (hk : TakesText sys request) :
    ∃ d, (calls (answer sys request).1 c).Returns d ∧
      ((∃ body, Framed request c d body) ↔
        (savedText request.line.url).length < 2^31 ∨ 2^32 ∣ (savedText request.line.url).length) := by
  have hanswer : (answer sys request).1 = (postRespond request).respond sys.head sys.body sys.reads++
      (if !keepsAlive request then [.forceClose] else []) := by
    rw [answer,hm]
    rfl
  have hsize : (postRespond request).size = wrapInt (savedText request.line.url).length := by
    simp only [postRespond,savedRespond,HttpRespond.setBody,HttpRespond.addContentSize,
      HttpRespond.addHeader,savedText]
  have hbody : (postRespond request).body = savedText request.line.url := rfl
  have hfd : (postRespond request).fd = -1 := rfl
  obtain ⟨f,hf,hacc⟩ := respond_sends (r := postRespond request) h he []
    (fun hpos => by omega) (by rw [hsize]; exact wrapInt_lt _) (fun hpos => by omega) hk.head
    (hk.body.imp fun k hb => ⟨hb.1,Nat.zero_le k⟩) hk.body sys.reads
  obtain ⟨d,hd,hsame⟩ := forceClose_calls (keepsAlive request) f
  rw [postRespond_lineHead,← hsame] at hacc
  refine ⟨d,hanswer ▸ (calls_append _ _ _ _).mpr ⟨f,hf,hd⟩,?_⟩
  have hsent : sentBody (postRespond request) [] =
      sentBody { size := wrapInt (savedText request.line.url).length
                 body := savedText request.line.url } [] := by
    simp only [sentBody,hsize,hbody,hfd]
  rw [hsent] at hacc
  simp only [framed_iff hacc,exists_eq_left]
  exact text_sent_iff _

theorem opened_streaming {p : Page} (h : Streaming sockfd c) (hfresh : Fresh c p)
    (hp : p.fd ≠ -1) :
    ∃ d, (calls p.opened c).Returns d ∧ Streaming sockfd d ∧ d.outputBuffer = c.outputBuffer ∧
      d.accepted = c.accepted ∧ d.files p.fd = some { content := p.content } := by
  have hnew := hfresh.resolve_left hp
  refine ⟨{ c with files := Function.update c.files p.fd (some { content := p.content }) }.act
    (.file .opened p.fd),?_,?_,rfl,rfl,Function.update_self _ _ _⟩
  · rw [Page.opened,if_neg hp,calls_one]
    change (if _ then _ else _ : Prog Fault Conn).Returns _
    rw [if_pos hnew]
    exact Prog.returns_self _
  · exact act_streaming (files_streaming h _) trivial (by simp)

theorem GetsFile.located {size : Int} (h : GetsFile c sys request size) :
    parseUrl sys request.line.url =
      { fd := sys.page.fd, url := sourcePath request.line.url, st := ⟨true,size⟩
        state := ._200Ok, opened := [(cStr (sourcePath request.line.url),sys.page)] } := by
  have hst : sys.page.lstat sys.st = ⟨true,size⟩ := by simp [Page.lstat,h.fd,h.stat]
  simp [parseUrl,hst,h.fd,h.stat]

theorem file_sent_iff {fd size : Int} {content : Bytes} (h0 : 0 ≤ fd)
    (hlen : (content.length:Int) = size) :
    (wrapInt size = (sentBody { size := wrapInt size, fd := fd } content).length ∧
      ((sentBody { size := wrapInt size, fd := fd } content).length:Int) = size) ↔
      size < 2^31 ∧ (fd ≠ 0 ∨ size = 0) := by
  have hlt := wrapInt_lt size
  by_cases hsmall : size < 2^31
  · rw [wrapInt_of_range (by omega) hsmall,sentBody]
    dsimp only
    by_cases hpos : 0 < fd ∧ 0 < size
    · rw [if_pos hpos,List.length_take]
      omega
    · rw [if_neg hpos]
      simp only [List.length_nil,ite_self]
      omega
  · exact iff_of_false (fun h => by omega) fun h => hsmall h.1

theorem get_framed_iff {size : Int} (h : Streaming sockfd c) (he : c.outputBuffer.contents = [])
    (hg : GetsFile c sys request size) (hk : TakesFile sys request) :
    ∃ d, (calls (answer sys request).1 c).Returns d ∧
      ((∃ body, Framed request c d body ∧ (body.length:Int) = size) ↔
        size < 2^31 ∧ (sys.page.fd ≠ 0 ∨ size = 0)) := by
  have hlen := hg.content
  have h0 : 0 ≤ sys.page.fd := (hg.fresh.resolve_left hg.fd).1
  have hloc := hg.located
  have hfd : (getRespond sys request).fd = sys.page.fd := by rw [getRespond,hloc]; rfl
  have hsize : (getRespond sys request).size = wrapInt size := by rw [getRespond,hloc]; rfl
  have hbody : (getRespond sys request).body = [] := by rw [getRespond]; rfl
  have hstate : (parseUrl sys request.line.url).state = ._200Ok := by rw [hloc]
  obtain ⟨b,hb,hs,hout,hsame,hfile⟩ := opened_streaming h hg.fresh hg.fd
  obtain ⟨f,hf,hacc⟩ := respond_sends (r := getRespond sys request) hs
    (by rw [hout,he]) sys.page.content (fun _ => by rw [hfd]; exact hfile)
    (by rw [hsize]; exact wrapInt_lt _)
    (fun _ => by rw [hsize,hlen]; exact wrapInt_le (by omega)) hk.head hk.body
    (hk.body.imp fun k hk => ⟨hk.1,by rw [hbody]; exact Nat.zero_le k⟩) sys.reads
  obtain ⟨d,hd,hlast⟩ := forceClose_calls (keepsAlive request) f
  rw [getRespond_lineHead hstate,hsame,← hlast,hsize] at hacc
  refine ⟨d,?_,?_⟩
  · rw [answer_get hg.method,hloc,if_neg (by dsimp only; omega),calls_append]
    refine ⟨f,(calls_append _ _ _ _).mpr ⟨b,?_,hf⟩,hd⟩
    simpa [Located.calls] using hb
  · have hsent : sentBody (getRespond sys request) sys.page.content =
        sentBody { size := wrapInt size, fd := sys.page.fd } sys.page.content := by
      simp only [sentBody,hsize,hbody,hfd]
    rw [hsent] at hacc
    simp only [framed_iff hacc,and_assoc,exists_eq_left]
    exact file_sent_iff h0 hlen

/-- Where the kernel takes everything, a POST is answered with as many bytes as are announced
exactly if its text is shorter than `2^31` bytes, or a multiple of `2^32` long; and a GET with as
many as the file has exactly if that is less than `2^31` and its descriptor is not `0`, or it is
empty. -/
theorem responses_framed_iff (sys : System) (request : HttpRequest) (sockfd : Int) (c : Conn)
    (h : Streaming sockfd c) (he : c.outputBuffer.contents = []) :
    (∀ size, GetsFile c sys request size → TakesFile sys request →
      ∃ d, (calls (answer sys request).1 c).Returns d ∧
        ((∃ body, Framed request c d body ∧ (body.length:Int) = size) ↔
          size < 2^31 ∧ (sys.page.fd ≠ 0 ∨ size = 0))) ∧
    (request.line.method = some .POST → TakesText sys request →
      ∃ d, (calls (answer sys request).1 c).Returns d ∧
        ((∃ body, Framed request c d body) ↔
          (savedText request.line.url).length < 2^31 ∨
            2^32 ∣ (savedText request.line.url).length)) :=
  ⟨fun _ hg hk => get_framed_iff h he hg hk,fun hm hk => post_framed_iff h he hm hk⟩

theorem idleConn_streaming : Streaming 5 idleConn ∧ idleConn.outputBuffer.contents = [] :=
  ⟨connected_streaming 5 false false _ _,(NetBuffer.create_holds (by decide : (1:Int) ≤ 4096)
    fun _ => 0).contents_eq⟩

def hugeFile : System where
  page := { fd := 7, content := List.replicate (2^31) 0, stat := some ⟨true,2^31⟩ }
  notFound := { fd := -1, stat := none }
  st := ⟨false,0⟩
  rand := 0
  head := .accept 4096
  body := .accept (2^31)
  reads := []

theorem hugeFile_gets : GetsFile idleConn hugeFile keepAliveRaw.request (2^31) := by
  refine ⟨rfl,by decide,.inr ⟨by decide,by decide,rfl⟩,rfl,?_⟩
  rw [hugeFile,List.length_replicate]
  rfl

theorem hugeFile_taken : TakesFile hugeFile keepAliveRaw.request := by
  refine ⟨⟨4096,rfl,by decide⟩,⟨2^31,rfl,?_⟩⟩
  rw [hugeFile,List.length_replicate]

theorem hugeFile_unframed : ¬ ∀ (sys : System) (request : HttpRequest) (sockfd size : Int)
    (c d : Conn), Streaming sockfd c → c.outputBuffer.contents = [] →
    GetsFile c sys request size → TakesFile sys request →
    (calls (answer sys request).1 c).Returns d →
    ∃ body, Framed request c d body ∧ (body.length:Int) = size := by
  intro h
  obtain ⟨hs,he⟩ := idleConn_streaming
  obtain ⟨d,hd,hiff⟩ := get_framed_iff hs he hugeFile_gets hugeFile_taken
  have hsmall := (hiff.mp (h _ _ 5 _ _ d hs he hugeFile_gets hugeFile_taken hd)).1
  exact absurd hsmall (by decide)

theorem responses_framed_iff_short :
    (∃ d, (calls (answer quiet keepAliveRaw.request).1 idleConn).Returns d ∧
      ((∃ body, Framed keepAliveRaw.request idleConn d body ∧ (body.length:Int) = 2) ↔
        (2:Int) < 2^31 ∧ (quiet.page.fd ≠ 0 ∨ (2:Int) = 0))) ∧
    ∃ d, (calls (answer quiet (shortPost.raw (by decide)).request).1 idleConn).Returns d ∧
      ((∃ body, Framed (shortPost.raw (by decide)).request idleConn d body) ↔
        (savedText (shortPost.raw (by decide)).request.line.url).length < 2^31 ∨
          2^32 ∣ (savedText (shortPost.raw (by decide)).request.line.url).length) :=
  ⟨(responses_framed_iff quiet keepAliveRaw.request 5 idleConn idleConn_streaming.1
      idleConn_streaming.2).1 2 ⟨rfl,by decide,.inr ⟨by decide,by decide,rfl⟩,rfl,rfl⟩
        ⟨⟨4096,rfl,by decide⟩,⟨4096,rfl,by decide⟩⟩,
    (responses_framed_iff quiet (shortPost.raw (by decide)).request 5 idleConn idleConn_streaming.1
      idleConn_streaming.2).2 rfl ⟨⟨4096,rfl,by decide⟩,⟨4096,rfl,by decide⟩⟩⟩

end AdlServer.Http
