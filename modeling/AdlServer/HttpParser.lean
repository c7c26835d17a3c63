import AdlServer.Cpp

/-! The request parser of `http/httpParser`: its data, its cursors and its three
phases, loop by loop. `buf` is all the memory behind the pointer handed to the
constructor, of which the first `len` bytes were received. -/
namespace AdlServer.Http
open Program Memory Cpp

def CR : UInt8 := 13
def LF : UInt8 := 10
def SP : UInt8 := 32

inductive Method where
  | GET | POST
  deriving DecidableEq, Repr

def Method.text : Method → Bytes
  | .GET => [71,69,84]
  | .POST => [80,79,83,84]

def http11 : Bytes := [72,84,84,80,47,49,46,49]

def http10 : Bytes := [72,84,84,80,47,49,46,48]

def contentLength : Bytes := [67,111,110,116,101,110,116,45,76,101,110,103,116,104]

/-- The method is `none` as long as nothing has assigned it. -/
structure HttpRequestLine where
  version : Bytes := []
  url : Bytes := []
  method : Option Method := none
  deriving DecidableEq

theorem noKeys_nodup : (([] : List (Bytes×Bytes)).map Prod.fst).Nodup := List.nodup_nil

/-- A `std::map` holds one value for a key. -/
structure HttpRequestHead where
  headMap : List (Bytes×Bytes) := []
  nodup : (headMap.map Prod.fst).Nodup := by exact noKeys_nodup

def HttpRequestHead.find (h : HttpRequestHead) (k : Bytes) : Option (Bytes×Bytes) :=
  h.headMap.find? fun kv => kv.1 = k

def HttpRequestHead.add (h : HttpRequestHead) (k v : Bytes) : HttpRequestHead :=
  if hk : k∈h.headMap.map Prod.fst then h
  else
    { headMap := h.headMap++[(k,v)]
      nodup := by
        rw [List.map_append,List.nodup_append]
        exact ⟨h.nodup,by simp,fun a ha b hb e => hk (by simp_all)⟩ }

def HttpRequestHead.getValue (h : HttpRequestHead) (k : Bytes) : Bytes :=
  match h.find k with
  | some kv => kv.2
  | none => []

def HttpRequestHead.get (h : HttpRequestHead) (k : Bytes) : Bytes×Bytes :=
  (h.find k).getD ([],[])

structure HttpRequest where
  parseSize : Int := 0
  line : HttpRequestLine := {}
  head : HttpRequestHead := {}
  body : Bytes := []

inductive FinnalState where
  | success | failed | incomplete
  deriving DecidableEq, Repr

inductive LineState where
  | ok | bad | incomplete
  deriving DecidableEq, Repr

inductive ProcessState where
  | line | head | body
  deriving DecidableEq, Repr

inductive RequestLineState where
  | method | url | version
  deriving DecidableEq, Repr

/-- The fields a parse changes; `buf_` and `len_` are arguments below. -/
structure HttpParser where
  finalState : FinnalState := .incomplete
  lineState : LineState := .incomplete
  processState : ProcessState := .line
  request : HttpRequest := {}
  lBeg : Int := 0
  lEnd : Int := 0
  cur : Int := 0

section
variable (buf : Mem) (len : Int)

def startsWith (p : Int) : Bytes → Bool
  | [] => true
  | c::cs => buf p == c && startsWith (p+1) cs

/-- `while (cur_ != stop && buf_[cur_++] != c) continue;` -/
def scanTo (c : UInt8) (stop cur : Int) : Prog Fault Int :=
  Prog.loop (fun cur => pure <|
    if cur = stop then .leave cur
    else if buf cur ≠ c then .again (cur+1)
    else .leave (cur+1)) cur

/-- `for (cur_ = l_beg_; cur_ < l_end_; cur_++) if (buf_[cur_] == ' ') break;` -/
def findSpace (lEnd cur : Int) : Prog Fault Int :=
  Prog.loop (fun cur => pure <|
    if cur < lEnd then
      if buf cur = SP then .leave cur else .again (cur+1)
    else .leave cur) cur

def lineEndTurn (cur : Int) : Turn Int (Option Int) :=
  if cur = len then .leave (some cur)
  else if buf cur ≠ CR then .again (cur+1)
  else if cur+1 = len then .leave none
  else if buf (cur+1) = LF then .leave (some (cur+2))
  else .again (cur+2)

def findLineEnd (cur : Int) : Prog Fault (Option Int) :=
  Prog.loop (fun cur => pure (lineEndTurn buf len cur)) cur

def findMethod (lBeg len : Int) : Option Method :=
  if 3 ≤ len ∧ startsWith buf lBeg Method.GET.text then some .GET
  else if 4 ≤ len ∧ startsWith buf lBeg Method.POST.text then some .POST
  else none

/-- One turn over the request line. The tests for methods that are not supported
both end in a bad line, so they are one branch here. -/
def requestLineTurn (s : RequestLineState×HttpParser) :
    Prog Fault (Turn (RequestLineState×HttpParser) HttpParser) :=
  let (rlState,p) := s
  if p.cur = p.lEnd then pure (.leave p)
  else match rlState with
    | .method =>
      match findMethod buf p.lBeg (p.lEnd-p.lBeg) with
      | none => pure (.leave { p with lineState := .bad })
      | some m =>
        let line := { p.request.line with method := some m }
        let cur := p.cur+(m.text.length:Int)
        let p := { p with request := { p.request with line := line }, cur := cur }
        if cur = p.lEnd then pure (.leave p)
        else if buf cur ≠ SP then pure (.leave { p with cur := cur+1 })
        else pure (.again (.url,{ p with cur := cur+1 }))
    | .url => do
      let uBegin := p.cur
      let cur ← scanTo buf SP p.lEnd p.cur
      if cur = p.lEnd then pure (.leave { p with cur := cur })
      else
        let line := { p.request.line with url := slice buf uBegin (cur-1) }
        pure (.again (.version,
          { p with request := { p.request with line := line }, cur := cur }))
    | .version =>
      if strncmpEq buf p.cur http11 8 ∨ strncmpEq buf p.cur http10 8 then
        let line := { p.request.line with version := slice buf p.cur (p.cur+8) }
        pure (.leave { p with
          request := { p.request with line := line }, cur := p.lEnd, lineState := .ok })
      else pure (.leave { p with cur := p.lEnd, lineState := .bad })

def requestLineParse (p : HttpParser) : Prog Fault HttpParser := do
  match ← findLineEnd buf len p.cur with
  | none => pure { p with cur := len, lineState := .incomplete }
  | some lEnd =>
    Prog.loop (requestLineTurn buf) (.method,{ p with lEnd := lEnd, cur := p.lBeg })

def requestHeadTurn (p : HttpParser) : Prog Fault (Turn HttpParser HttpParser) :=
  if p.cur = len then pure (.leave p)
  else do
    let p := { p with cur := p.lEnd, lBeg := p.lEnd, lineState := .incomplete }
    let cur ← scanTo buf CR len p.cur
    if cur = len then pure (.leave { p with cur := cur })
    else if buf cur ≠ LF then pure (.again { p with cur := cur+1 })
    else
      let p := { p with cur := cur+1, lEnd := cur+1 }
      if p.lBeg+2 = p.lEnd then pure (.leave { p with lineState := .ok })
      else do
        let cur ← findSpace buf p.lEnd p.lBeg
        if cur = p.lEnd then pure (.leave { p with cur := cur, lineState := .bad })
        else do
          let k ← rangeString buf p.lBeg (cur-1)
          let v ← rangeString buf (cur+1) (p.lEnd-2)
          pure (.again { p with
            cur := cur
            request := { p.request with head := p.request.head.add k v }
            lineState := .ok })

def requestHeadParse (p : HttpParser) : Prog Fault HttpParser :=
  Prog.loop (requestHeadTurn buf len) p

/-- The sum of the two tests is an `int`. -/
def requestBodyParse (n : Int) (p : HttpParser) : HttpParser :=
  if len < wrapInt (p.cur+n) then { p with lineState := .incomplete }
  else if wrapInt (p.cur+n) ≤ len then
    { p with
      request := { p.request with body := slice buf p.cur (p.cur+n) }
      cur := wrapInt (p.cur+n)
      lineState := .ok }
  else p

def bodyTurn (value : Int) (p : HttpParser) : Turn HttpParser HttpParser :=
  if 0 < value then
    let p := requestBodyParse buf len value p
    match p.lineState with
    | .bad => .leave { p with finalState := .failed }
    | .ok =>
      .leave { p with
        request := { p.request with parseSize := p.cur }, finalState := .success }
    | .incomplete => .leave { p with finalState := .incomplete }
  else .again p

/-- One turn of the main loop of `parse`. -/
def parseTurn (p : HttpParser) : Prog Fault (Turn HttpParser HttpParser) :=
  if p.cur = len then pure (.leave p)
  else
    let p := { p with lineState := .incomplete }
    match p.processState with
    | .line => do
      let p ← requestLineParse buf len p
      match p.lineState with
      | .bad => pure (.leave { p with finalState := .failed })
      | .ok => pure (.again { p with processState := .head })
      | .incomplete => pure (.leave { p with finalState := .incomplete })
    | .head => do
      let p ← requestHeadParse buf len p
      match p.lineState with
      | .bad => pure (.leave { p with finalState := .failed })
      | .ok =>
        if p.request.line.method = some .GET then
          pure (.leave { p with
            request := { p.request with parseSize := p.cur }, finalState := .success })
        else pure (.again { p with processState := .body })
      | .incomplete => pure (.leave { p with finalState := .incomplete })
    | .body =>
      let kv := p.request.head.get contentLength
      if p.request.line.method = some .POST ∧ kv.1 ≠ [] ∧ p.cur < len then do
        let value ← stoi kv.2
        pure (bodyTurn buf len value p)
      else pure (.leave { p with finalState := .failed })

/-- `httpParser(buf, len).parse()`; the verdict is the result's `finalState`. -/
def parse : Prog Fault HttpParser := Prog.loop (parseTurn buf len) {}

end
end AdlServer.Http
