import AdlServer.HttpServer
import AdlServer.LexicalPath

/-! Which files a GET can reach: the paths that `parseUrl` opens, and the document root. -/
namespace AdlServer.Http
open Program Memory Cpp LexicalPath

def components : Bytes → List Bytes
  | [] => [[]]
  | b::s =>
    if b = 47 then []::components s
    else
      match components s with
      | [] => [[b]]
      | c::cs => (b::c)::cs

/-- Neither an empty component nor `.` leads anywhere; `..` leads up. -/
def component (c : Bytes) : Option (Component Bytes) :=
  if c = [] ∨ c = [46] then none
  else if c = [46,46] then some .up
  else some (.name c)

def steps (path : Bytes) : List (Component Bytes) := (components path).filterMap component

def root : Bytes := bytes "source"

/-- The normalised path lies under `./source`. -/
def Under (path : Bytes) : Prop := normalise (steps (bytes "./source")) <+: normalise (steps path)

instance (path : Bytes) : Decidable (Under path) :=
  inferInstanceAs (Decidable (normalise (steps (bytes "./source")) <+: normalise (steps path)))

/-- Behind `source`, up to its first NUL, the URL has a component `source` before which it
leads nowhere and behind which it has never more `..` than names. -/
def StaysInside (url : Bytes) : Prop :=
  ∃ before after, steps (root++cStr url) = before++.name root::after ∧ level before = 0 ∧
    Stays before ∧ Stays after

theorem prefix_singleton_iff {α : Type} (a : α) (s : List α) : [a] <+: s ↔ s.head? = some a := by
  cases s with
  | nil => simp
  | cons b s => simp [List.cons_prefix_cons,eq_comm]

theorem under_iff (path : Bytes) : Under path ↔ ∃ before after,
    steps path = before++.name root::after ∧ level before = 0 ∧ Stays before ∧ Stays after := by
  have hroot : normalise (steps (bytes "./source")) = [.name root] := by decide
  rw [Under]
  rw [hroot,prefix_singleton_iff,head_normalise_iff]

theorem steps_dot (s : Bytes) : steps (46::47::s) = steps s := by
  unfold steps
  simp [components,component]

theorem cStr_sourcePath {url : Bytes} (h : bytes "./source"++url ≠ bytes "./source/") :
    cStr (sourcePath url) = 46::47::(root++cStr url) := by
  have hno : (bytes "./source").all (fun b => b ≠ 0) = true := by decide
  rw [sourcePath,cStr]
  rw [if_neg h,List.takeWhile_append_of_pos (List.all_eq_true.mp hno)]
  rfl

theorem under_sourcePath_iff (url : Bytes) : Under (cStr (sourcePath url)) ↔ StaysInside url := by
  by_cases h : bytes "./source"++url = bytes "./source/"
  · have hurl : url = [47] := by
      have hsplit : bytes "./source/" = bytes "./source"++[47] := by decide
      rw [hsplit] at h
      exact List.append_cancel_left h
    subst hurl
    refine iff_of_true (by decide) ⟨[],[],by decide,rfl,stays_nil,stays_nil⟩
  · rw [cStr_sourcePath h,under_iff,steps_dot]
    exact Iff.rfl

theorem opened_under_iff (sys : System) (url : Bytes) :
    (∀ o∈(parseUrl sys url).opened, Under o.1) ↔ StaysInside url := by
  have hnot : Under notFoundPath := by decide
  unfold parseUrl
  dsimp only
  split_ifs
  · simp [under_sourcePath_iff,hnot]
  · simp [under_sourcePath_iff]

/-- For each request that is accepted as a GET, every path that is opened lies under the
root exactly if the URL, which stands between the first two spaces, stays inside. -/
theorem get_under_root_iff (sys : System) {buf : Mem} {len : Int} {p : HttpParser}
    (h0 : 0 ≤ len) (hp : (parse buf len).Returns p) (hs : p.finalState = .success)
    (hm : p.request.line.method = some .GET) :
    ∃ url rest, slice buf 0 len = Method.GET.text++SP::(url++SP::rest) ∧ SP∉url ∧
      ((∀ o∈(parseUrl sys p.request.line.url).opened, Under o.1) ↔ StaysInside url) := by
  obtain ⟨l,hds,rest,h,hcase⟩ := parse_success_inv h0 hp hs
  have hline : p.request.line = l.requestLine := by
    cases hcase with
    | inl hget =>
      rw [hget.2]
      rfl
    | inr hpost =>
      obtain ⟨_,_,kv,v,_,_,_,_,hreq⟩ := hpost
      rw [hreq]
      rfl
  have hget : l.method = .GET := by
    rw [hline] at hm
    exact Option.some.inj hm
  refine ⟨l.url,l.version++l.junk++[CR,LF]++headersText hds++[CR,LF]++rest,?_,l.url_no_space,?_⟩
  · rw [h]
    simp [headText,RawLine.text,RawLine.line,hget]
  · rw [hline]
    exact opened_under_iff sys l.url

def climbingGet : Request where
  method := .GET
  url := [47,46,46,47,120]
  version := http11
  headers := []
  body := []
  url_no_space := by decide
  url_no_cr := by decide
  version_known := http11_known
  key_no_space := by decide
  key_no_cr := by decide
  value_no_cr := by decide
  framed := noBody

theorem climbingGet_parsed : ∃ p,
    (parse (ofBytes climbingGet.serialise fun _ => 0) climbingGet.serialise.length).Returns p ∧
      p.finalState = .success ∧ p.request.line = ⟨http11,[47,46,46,47,120],some .GET⟩ := by
  obtain ⟨p,hp,hs,hline,_⟩ := parse_serialise climbingGet [] (ofBytes climbingGet.serialise fun _ => 0)
    climbingGet.serialise.length (by rw [List.append_nil]; exact slice_ofBytes _ _) (by decide)
  exact ⟨p,hp,hs,hline⟩

theorem get_outside_root : ¬ ∀ (sys : System) (buf : Mem) (len : Int) (p : HttpParser), 0 ≤ len →
    (parse buf len).Returns p → p.finalState = .success → p.request.line.method = some .GET →
    ∀ o∈(parseUrl sys p.request.line.url).opened, Under o.1 := by
  intro hall
  have hparsed := climbingGet_parsed
  obtain ⟨p,hp,hs,hline⟩ := hparsed
  have hunder := hall quiet _ _ p (Int.natCast_nonneg _) hp hs (by rw [hline])
  have hmem : (cStr (sourcePath [47,46,46,47,120]),quiet.page)∈
      (parseUrl quiet p.request.line.url).opened := by
    rw [hline]
    exact List.mem_singleton.mpr rfl
  exact absurd (hunder _ hmem) (by decide)

theorem get_under_root_iff_climbing : ∃ (p : HttpParser) (url rest : Bytes),
    p.request.line.url = [47,46,46,47,120] ∧
    slice (ofBytes climbingGet.serialise fun _ => 0) 0 climbingGet.serialise.length =
      Method.GET.text++SP::(url++SP::rest) ∧ SP∉url ∧
    ((∀ o∈(parseUrl quiet p.request.line.url).opened, Under o.1) ↔ StaysInside url) := by
  have hparsed := climbingGet_parsed
  obtain ⟨p,hp,hs,hline⟩ := hparsed
  obtain ⟨url,rest,h⟩ := get_under_root_iff quiet (Int.natCast_nonneg _) hp hs (by rw [hline])
  exact ⟨p,url,rest,by rw [hline],h⟩

end AdlServer.Http
