import AdlServer.RequestRoundTrip
import AdlServer.TcpConnection

/-! The web server on top: the answers of `http/httpRespond` and the callbacks of
`httpServer`. They ask nothing of the connection, so a callback is its effect on the
input buffer and the calls it makes in their order. -/
namespace AdlServer.Http
open Program Memory Cpp Net

def bytes (s : String) : Bytes := s.toUTF8.data.toList

def intString (x : Int) : Bytes :=
  if x < 0 then 45::Cpp.toString (-x).toNat else Cpp.toString x.toNat

inductive RepState where
  | _200Ok | _400BadRequest | _404NotFound
  deriving DecidableEq, Repr

def repString : RepState → Bytes
  | ._200Ok => bytes "200 OK"
  | ._400BadRequest => bytes "400 Bad Request"
  | ._404NotFound => bytes "404 Not Found"

/-- `headMap_[key] = value` of a `std::map`, which is kept in the order of its keys. -/
def assign (k v : Bytes) : List (Bytes×Bytes) → List (Bytes×Bytes)
  | [] => [(k,v)]
  | kv::m =>
    if k < kv.1 then (k,v)::kv::m
    else if k = kv.1 then (k,v)::m
    else kv::assign k v m

structure HttpRespond where
  size : Int := 0
  state : Option RepState := none
  headMap : List (Bytes×Bytes) := []
  version : Bytes := []
  fd : Int := -1
  body : Bytes := []

namespace HttpRespond
variable (r : HttpRespond)

def setStatusCode (state : RepState) : HttpRespond := { r with state := some state }

def addHeader (key value : Bytes) : HttpRespond :=
  { r with headMap := assign key value r.headMap }

def addContentType (type : Bytes) : HttpRespond := r.addHeader (bytes "Content-Type") type

def addContentSize (size : Int) : HttpRespond :=
  { r with size := size }.addHeader (bytes "Content-Length") (intString size)

def addKeepAlive (on : Bool) : HttpRespond :=
  r.addHeader (bytes "Connection") (if on then bytes "keep-alive" else bytes "Close")

def setBody (body : Bytes) : HttpRespond :=
  { r with body := body }.addContentSize (wrapInt body.length)

def linkFileFd (fd : Int) : HttpRespond := { r with fd := fd }

/-- Status line, header lines and the empty line. -/
def lineHead : Bytes :=
  r.version++[SP]++((r.state.map repString).getD [])++[CR,LF]++
    r.headMap.flatMap serialiseHeader++[CR,LF]

/-- The two sends of a response, with the kernel's answers to them. -/
def respond (head body : WriteAnswer) (reads : List Conn.FileAnswer) : List Conn.UserCall :=
  .send r.lineHead head::
    if 0 < r.fd ∧ 0 < r.size then [.sendFile r.fd r.size body reads]
    else if r.body.length = sizeT r.size then [.send r.body body]
    else []

end HttpRespond

structure Stat where
  regular : Bool
  size : Int
  deriving DecidableEq

structure Page where
  fd : Int
  content : Bytes := []
  stat : Option Stat

/-- `lstat` is called only for a page that could be opened. -/
def Page.lstat (p : Page) (st : Stat) : Stat := if p.fd = -1 then st else p.stat.getD st

def Page.opened (p : Page) : List Conn.UserCall :=
  if p.fd = -1 then [] else [.xopen p.fd p.content]

/-- What the system answers while one request is served. `st` is what lies in the
uninitialised `struct stat`. -/
structure System where
  page : Page
  notFound : Page
  st : Stat
  rand : Nat
  head : WriteAnswer
  body : WriteAnswer
  reads : List Conn.FileAnswer

/-- What `parseUrl` returns, what it leaves in its arguments, and the paths it hands to
`xopen`. -/
structure Located where
  fd : Int
  url : Bytes
  st : Stat
  state : RepState
  opened : List (Bytes×Page)

def Located.calls (l : Located) : List Conn.UserCall := l.opened.flatMap fun o => o.2.opened

def cStr (s : Bytes) : Bytes := s.takeWhile (· ≠ 0)

def sourcePath (url : Bytes) : Bytes :=
  let url := bytes "./source"++url
  if url = bytes "./source/" then url++bytes "index.html" else url

def notFoundPath : Bytes := bytes "./source/404.html"

def parseUrl (sys : System) (url : Bytes) : Located :=
  let url := sourcePath url
  let st := sys.page.lstat sys.st
  if sys.page.fd = -1 ∨ sys.page.stat = none ∨ !st.regular then
    { fd := sys.notFound.fd
      url := notFoundPath
      st := sys.notFound.lstat st
      state := ._404NotFound
      opened := [(cStr url,sys.page),(notFoundPath,sys.notFound)] }
  else
    { fd := sys.page.fd
      url := url
      st := st
      state := ._200Ok
      opened := [(cStr url,sys.page)] }

/-- What a callback leaves in the input buffer, the requests it hands to
`successCallback`, its calls on the connection, and the files it has written. -/
structure Handled where
  buf : NetBuffer
  served : List HttpRequest := []
  calls : List Conn.UserCall := []
  saved : List (Bytes×Bytes) := []

def keepsAlive (request : HttpRequest) : Bool :=
  request.head.getValue (bytes "Connection") = bytes "Keep-Alive" ||
    request.head.getValue (bytes "Connection") = bytes "keep-alive"

def html : Bytes := bytes "text/html; charset=utf-8"

def pageRespond (respond : HttpRespond) (page : Located) : HttpRespond :=
  (((respond.setStatusCode page.state).addContentSize (wrapInt page.st.size)).linkFileFd
    page.fd).addContentType html

def savedRespond (respond : HttpRespond) (url : Bytes) : HttpRespond :=
  ((respond.setStatusCode ._200Ok).addContentType html).setBody
    (bytes "which your sended have saved as ./source"++url)

def answer (sys : System) (request : HttpRequest) : List Conn.UserCall×List (Bytes×Bytes) :=
  let url := request.line.url
  let kep := keepsAlive request
  let respond := ({ version := request.line.version } : HttpRespond).addKeepAlive kep
  let close : List Conn.UserCall := if !kep then [.forceClose] else []
  match request.line.method with
  | some .GET =>
    let page := parseUrl sys url
    if page.fd < 0 then (page.calls++[.forceClose],[])
    else
      let respond := pageRespond respond page
      (page.calls++respond.respond sys.head sys.body sys.reads++close,[])
  | some .POST =>
    let file := bytes "./source/"++Cpp.toString sys.rand++bytes ".txt"
    let respond := savedRespond respond url
    (respond.respond sys.head sys.body sys.reads++close,[(file,request.body)])
  | none => (close,[])

def successCallback (sys : System) (request : HttpRequest) (buf : NetBuffer) :
    Prog Fault Handled := do
  let buf ← buf.retrieve request.parseSize
  let (calls,saved) := answer sys request
  pure { buf := buf, served := [request], calls := calls, saved := saved }

/-- `httpParser parser(buf->peek(), buf->readable());` and its verdict. -/
def httpMessageCallback (sys : System) (buf : NetBuffer) : Prog Fault Handled := do
  let parser ← parse (shift buf.buf buf.r) buf.readable
  match parser.finalState with
  | .success => successCallback sys parser.request buf
  | .incomplete => pure { buf := buf }
  | .failed => pure { buf := buf.retrieveAll, calls := [.shutdown] }

variable {buf : NetBuffer}

theorem slice_peek (buf : NetBuffer) : slice (shift buf.buf buf.r) 0 buf.readable = buf.contents := by
  have he : buf.r+buf.readable = buf.w := by
    rw [NetBuffer.readable]
    omega
  rw [slice_shift,Int.add_zero,he]
  rfl

theorem successCallback_returns (sys : System) {request : HttpRequest} (h : buf.Wf)
    (h0 : 0 ≤ request.parseSize) (hle : request.parseSize ≤ buf.readable) :
    ∃ handled, (successCallback sys request buf).Returns handled ∧
      handled.served = [request] ∧
      handled.buf.Holds (buf.contents.drop request.parseSize.toNat) := by
  obtain ⟨b,hb,hh⟩ := NetBuffer.retrieve_returns h h0 hle
  exact ⟨_,hb.bind (Prog.returns_self _),rfl,hh⟩

theorem httpMessageCallback_serves (sys : System) (r : RawRequest) {rest : Bytes} (h : buf.Wf)
    (hlen : buf.readable < 2^31) (hc : buf.contents = r.text++rest) :
    ∃ handled, (httpMessageCallback sys buf).Returns handled ∧
      handled.served = [r.request] ∧ handled.buf.Holds rest := by
  have hl := h.length_contents
  rw [hc,List.length_append] at hl
  have hsize : r.request.parseSize = r.text.length := rfl
  obtain ⟨p,hp,hs,hreq⟩ := parse_accepts r (by omega) ((slice_peek buf).trans hc)
  obtain ⟨handled,hr,hserved,hh⟩ := @successCallback_returns buf sys r.request h (by omega)
    (by omega)
  refine ⟨handled,hp.bind ?_,hserved,?_⟩
  · rw [hs,hreq]
    exact hr
  · rw [hc,hsize,Int.toNat_natCast,List.drop_left] at hh
    exact hh

theorem httpMessageCallback_waits (sys : System) {p : HttpParser}
    (hp : (parse (shift buf.buf buf.r) buf.readable).Returns p)
    (hw : p.finalState = .incomplete) :
    (httpMessageCallback sys buf).Returns { buf := buf } := by
  refine hp.bind ?_
  rw [hw]
  exact Prog.returns_self _

/-- With whole requests in the buffer and a tail for which the parser waits, one call
serves them all exactly when there is no more than one. -/
theorem pipelined_served_iff (sys : System) (buf : NetBuffer) (requests : List RawRequest)
    (tail : Bytes) (h : buf.Wf) (hlen : buf.readable < 2^31)
    (hc : buf.contents = requests.flatMap RawRequest.text++tail)
    (htail : ∃ p, (parse (shift buf.buf (buf.w-tail.length)) tail.length).Returns p ∧
      p.finalState = .incomplete) :
    ∃ handled, (httpMessageCallback sys buf).Returns handled ∧
      ((handled.served = requests.map RawRequest.request ∧ handled.buf.contents = tail) ↔
        requests.length ≤ 1) := by
  cases requests with
  | nil =>
    obtain ⟨p,hp,hw⟩ := htail
    have hl := h.length_contents
    simp only [List.flatMap_nil,List.nil_append] at hc
    rw [hc] at hl
    have hr : buf.w-tail.length = buf.r := by
      rw [NetBuffer.readable] at hl
      omega
    rw [hr,hl] at hp
    exact ⟨_,httpMessageCallback_waits sys hp hw,iff_of_true ⟨rfl,hc⟩ (by simp)⟩
  | cons r requests =>
    rw [List.flatMap_cons,List.append_assoc] at hc
    obtain ⟨handled,hr,hs,hh⟩ := httpMessageCallback_serves sys r h hlen hc
    refine ⟨handled,hr,?_⟩
    rw [hs,hh.contents_eq]
    cases requests with
    | nil => exact iff_of_true ⟨rfl,rfl⟩ (by simp)
    | cons r' requests => exact iff_of_false (fun he => by simp at he) (by simp)

def keepAliveGet : Request where
  method := .GET
  url := [47]
  version := http11
  headers := [(bytes "Connection",bytes "keep-alive")]
  body := []
  url_no_space := slash_no_space
  url_no_cr := slash_no_cr
  version_known := http11_known
  key_no_space := by decide
  key_no_cr := by decide
  value_no_cr := by decide
  framed := noBody

def keepAliveRaw : RawRequest := keepAliveGet.raw (by decide)

def holding (s : Bytes) : NetBuffer where
  buf := ofBytes s fun _ => 0
  size := 4096
  w := s.length
  alloc := 4096

theorem holding_holds (s : Bytes) (h : s.length < 4096) : (holding s).Holds s := by
  refine ⟨⟨⟨Int.le_refl 0,Int.natCast_nonneg _,?_,(by decide : (0:Int) < 4096),rfl⟩,?_⟩,slice_ofBytes s _⟩
  · simp only [holding]
    omega
  · simp only [holding]
    omega

def quiet : System where
  page := { fd := 7, content := [1,2], stat := some ⟨true,2⟩ }
  notFound := { fd := -1, stat := none }
  st := ⟨false,0⟩
  rand := 0
  head := .accept 4096
  body := .accept 4096
  reads := []

theorem keepAliveRaw_text : keepAliveRaw.text = keepAliveGet.serialise :=
  keepAliveGet.raw_text (by decide)

theorem pipelined_served_iff_one :
    ∃ handled, (httpMessageCallback quiet (holding (keepAliveGet.serialise++[71,69,84,32]))).Returns
        handled ∧
      ((handled.served = [keepAliveRaw.request] ∧ handled.buf.contents = [71,69,84,32]) ↔
        [keepAliveRaw].length ≤ 1) := by
  have hh := holding_holds (keepAliveGet.serialise++[71,69,84,32]) (by decide)
  refine pipelined_served_iff quiet _ [keepAliveRaw] [71,69,84,32] hh.wf (by decide) ?_
    ⟨_,⟨20,rfl⟩,rfl⟩
  rw [hh.contents_eq,← keepAliveRaw_text]
  simp

theorem pipelined_second_left :
    keepsAlive keepAliveRaw.request = true ∧
    (holding (keepAliveGet.serialise++keepAliveGet.serialise)).contents =
      [keepAliveRaw,keepAliveRaw].flatMap RawRequest.text++[] ∧
    ∃ handled, (httpMessageCallback quiet
        (holding (keepAliveGet.serialise++keepAliveGet.serialise))).Returns handled ∧
      handled.served = [keepAliveRaw.request] ∧
      handled.buf.contents = keepAliveGet.serialise := by
  have hh := holding_holds (keepAliveGet.serialise++keepAliveGet.serialise) (by decide)
  obtain ⟨handled,hr,hs,hb⟩ := httpMessageCallback_serves quiet keepAliveRaw hh.wf (by decide)
    (hh.contents_eq.trans (by rw [← keepAliveRaw_text]))
  refine ⟨by decide,?_,handled,hr,hs,hb.contents_eq⟩
  rw [hh.contents_eq,← keepAliveRaw_text]
  simp

end AdlServer.Http
