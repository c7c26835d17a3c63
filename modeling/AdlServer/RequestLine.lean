import AdlServer.HttpParser

/-! What the scanning loops and `requestLineParse` do, in terms of the received
bytes instead of cursors. -/
namespace AdlServer.Http
open Program Memory Cpp
variable {buf : Mem} {len : Int}

theorem ends_scan {ρ : Type} {body : Int → Prog Fault (Turn Int ρ)} {c : UInt8} {stop : Int}
    (hbody : ∀ i, i < stop → buf i ≠ c → (body i).Returns (.again (i+1))) {cur : Int}
    {seg rest : Bytes} (h : slice buf cur stop = seg++rest) (hc : c∉seg) (o : Except Fault ρ) :
    (Prog.loop body cur).Ends o ↔ (Prog.loop body (cur+seg.length)).Ends o := by
  induction seg generalizing cur with
  | nil => simp
  | cons a seg ih =>
    obtain ⟨hlt,hb,hr⟩ := slice_head h
    have hac : buf cur ≠ c := by
      intro he
      exact hc (by simp [← he,hb])
    have he : cur+1+(seg.length:Int) = cur+((a::seg).length:Int) := by
      simp only [List.length_cons]
      omega
    rw [Prog.ends_loop_again (cur+1) (hbody cur hlt hac),
      ih hr fun hm => hc (List.mem_cons_of_mem a hm),he]

section
variable {c : UInt8} {stop cur : Int} {seg rest : Bytes}

theorem scanTo_again : ∀ i, i < stop → buf i ≠ c →
    Prog.Returns (pure (if i = stop then Turn.leave i
      else if buf i ≠ c then .again (i+1) else .leave (i+1)) : Prog Fault _) (.again (i+1)) := by
  intro i hi hc
  rw [if_neg (Int.ne_of_lt hi),if_pos hc]
  exact Prog.returns_self _

theorem scanTo_hit (h : slice buf cur stop = seg++c::rest) (hc : c∉seg) :
    (scanTo buf c stop cur).Returns (cur+seg.length+1) := by
  obtain ⟨hlt,hb,-⟩ := slice_head (slice_split h).2
  refine (ends_scan scanTo_again h hc _).mpr (Prog.returns_loop_leave ?_)
  simp [hb,Int.ne_of_lt hlt]

theorem scanTo_miss (hle : cur ≤ stop) (hc : c∉slice buf cur stop) :
    (scanTo buf c stop cur).Returns stop := by
  have hend : stop = cur+(slice buf cur stop).length := slice_end hle rfl
  refine (ends_scan scanTo_again (List.append_nil _).symm hc _).mpr (Prog.returns_loop_leave ?_)
  rw [← hend,if_pos rfl]
  exact Prog.returns_self _

theorem findSpace_again : ∀ i, i < stop → buf i ≠ SP →
    Prog.Returns (pure (if i < stop then
      if buf i = SP then Turn.leave i else .again (i+1) else .leave i) : Prog Fault _)
      (.again (i+1)) := by
  intro i hi hc
  rw [if_pos hi,if_neg hc]
  exact Prog.returns_self _

theorem findSpace_hit (h : slice buf cur stop = seg++SP::rest) (hc : SP∉seg) :
    (findSpace buf stop cur).Returns (cur+seg.length) := by
  obtain ⟨hlt,hb,-⟩ := slice_head (slice_split h).2
  refine (ends_scan findSpace_again h hc _).mpr (Prog.returns_loop_leave ?_)
  simp [hb,hlt]

theorem findSpace_miss (hle : cur ≤ stop) (hc : SP∉slice buf cur stop) :
    (findSpace buf stop cur).Returns stop := by
  have hend : stop = cur+(slice buf cur stop).length := slice_end hle rfl
  refine (ends_scan findSpace_again (List.append_nil _).symm hc _).mpr
    (Prog.returns_loop_leave ?_)
  rw [← hend,if_neg (Int.lt_irrefl _)]
  exact Prog.returns_self _

end

/-- Nothing in `s` ends the search for CR LF, which steps over the byte after
a lone CR, and `s` does not end inside such a pair. -/
def crlfFree : Bytes → Bool
  | [] => true
  | [c] => c != CR
  | c::d::s => if c = CR then d != LF && crlfFree s else crlfFree (d::s)

inductive CrlfSearch (s : Bytes) : Prop where
  | none (h : crlfFree s = true)
  | lastCr (seg : Bytes) (h : s = seg++[CR]) (hs : crlfFree seg = true)
  | found (seg rest : Bytes) (h : s = seg++CR::LF::rest) (hs : crlfFree seg = true)

theorem crlf_cases (s : Bytes) : CrlfSearch s := by
  induction s using crlfFree.induct with
  | case1 => exact .none rfl
  | case2 c =>
    by_cases hc : c = CR
    · exact .lastCr [] (by simp [hc]) rfl
    · exact .none (by simp [crlfFree,hc])
  | case3 d s ih =>
    by_cases hd : d = LF
    · exact .found [] s (by simp [hd]) rfl
    · have step (t : Bytes) (ht : crlfFree t = true) : crlfFree (CR::d::t) = true := by
        simp [crlfFree,hd,ht]
      cases ih with
      | none h => exact .none (step s h)
      | lastCr seg h hs => exact .lastCr (CR::d::seg) (by simp [h]) (step seg hs)
      | found seg rest h hs => exact .found (CR::d::seg) rest (by simp [h]) (step seg hs)
  | case4 c d s hc ih =>
    have step (t : Bytes) (ht : crlfFree t = true) : crlfFree (c::t) = true := by
      cases t with
      | nil => simp [crlfFree,hc]
      | cons e t => simpa [crlfFree,hc] using ht
    cases ih with
    | none h => exact .none (step _ h)
    | lastCr seg h hs => exact .lastCr (c::seg) (by simp [h]) (step seg hs)
    | found seg rest h hs => exact .found (c::seg) rest (by simp [h]) (step seg hs)

theorem crlfFree_of_no_cr {s : Bytes} (h : CR∉s) : crlfFree s = true := by
  induction s using crlfFree.induct with
  | case1 => rfl
  | case2 c =>
    have hc : c ≠ CR := by
      intro he
      exact h (by simp [he])
    simp [crlfFree,hc]
  | case3 d s ih => exact absurd (List.mem_cons_self) h
  | case4 c d s hc ih => simpa [crlfFree,hc] using ih fun hm => h (List.mem_cons_of_mem c hm)

theorem crlfFree_append {s : Bytes} (hs : crlfFree s = true) (t : Bytes) :
    crlfFree (s++t) = crlfFree t := by
  induction s using crlfFree.induct with
  | case1 => rfl
  | case2 c =>
    have hc : c ≠ CR := by simpa [crlfFree] using hs
    cases t <;> simp [crlfFree,hc]
  | case3 d s ih =>
    obtain ⟨hd,hs'⟩ : d ≠ LF ∧ crlfFree s = true := by simpa [crlfFree] using hs
    change (d != LF && crlfFree (s++t)) = crlfFree t
    rw [ih hs']
    simp [hd]
  | case4 c d s hc ih =>
    have hs' : crlfFree (d::s) = true := by simpa [crlfFree,hc] using hs
    simpa [crlfFree,hc] using ih hs'

theorem crlfFree_prefix {s t : Bytes} (h : crlfFree (s++t) = true) :
    crlfFree s = true ∨ ∃ s', s = s'++[CR] ∧ crlfFree s' = true := by
  cases crlf_cases s with
  | none hs => exact .inl hs
  | lastCr seg he hs => exact .inr ⟨seg,he,hs⟩
  | found seg rest he hs =>
    rw [he,List.append_assoc,crlfFree_append hs] at h
    simp [crlfFree] at h

theorem cr_mem_of_end {r w s : Bytes} (hw : w ≠ []) (h : r++w = s++[CR]) : CR∈w := by
  obtain ⟨w',e,he⟩ := (List.eq_nil_or_concat' w).resolve_left hw
  rw [he,← List.append_assoc] at h
  simp [he,(List.append_inj' h rfl).2]

section
variable {s t x y : Bytes}

theorem before_unique {c : UInt8} (hs : c∉s) (ht : c∉t) (h : s++c::x = t++c::y) :
    s = t ∧ x = y := by
  induction s generalizing t with
  | nil =>
    cases t with
    | nil => exact ⟨rfl,(List.cons.inj h).2⟩
    | cons d t => exact absurd List.mem_cons_self ((List.cons.inj h).1 ▸ ht)
  | cons b s ih =>
    cases t with
    | nil => exact absurd List.mem_cons_self ((List.cons.inj h).1.symm ▸ hs)
    | cons d t =>
      obtain ⟨hb,hrest⟩ := List.cons.inj h
      obtain ⟨he,hxy⟩ := ih (fun hm => hs (List.mem_cons_of_mem b hm))
        (fun hm => ht (List.mem_cons_of_mem d hm)) hrest
      exact ⟨by rw [hb,he],hxy⟩

theorem not_crlf_of_no_cr (h : CR∉s) : ¬ [CR,LF]<:+:s :=
  fun hi => h (hi.subset List.mem_cons_self)

theorem nil_of_crlf_at {a : Bytes} (hs : ¬ [CR,LF]<:+:s++a) (h : CR::LF::x = a++CR::LF::y) :
    a = [] := by
  cases a with
  | nil => rfl
  | cons c a =>
    obtain ⟨hc,h⟩ := List.cons.inj h
    cases a with
    | nil => exact absurd (List.cons.inj h).1 (by decide)
    | cons d a =>
      obtain ⟨hd,_⟩ := List.cons.inj h
      exact absurd ⟨s,a,by simp [← hc,← hd]⟩ hs

theorem line_unique (hs : ¬ [CR,LF]<:+:s) (ht : ¬ [CR,LF]<:+:t)
    (h : s++CR::LF::x = t++CR::LF::y) : s = t ∧ x = y := by
  cases List.append_eq_append_iff.mp h with
  | inl h =>
    obtain ⟨a,hta,hx⟩ := h
    have ha := nil_of_crlf_at (hta ▸ ht) hx
    rw [ha,List.append_nil] at hta
    rw [ha,List.nil_append] at hx
    exact ⟨hta.symm,(List.cons.inj (List.cons.inj hx).2).2⟩
  | inr h =>
    obtain ⟨a,hsa,hy⟩ := h
    have ha := nil_of_crlf_at (hsa ▸ hs) hy
    rw [ha,List.append_nil] at hsa
    rw [ha,List.nil_append] at hy
    exact ⟨hsa,(List.cons.inj (List.cons.inj hy).2).2.symm⟩

end

theorem findLineEnd_skip {cur : Int} {seg rest : Bytes} (h : slice buf cur len = seg++rest)
    (hs : crlfFree seg = true) (o : Except Fault (Option Int)) :
    (findLineEnd buf len cur).Ends o ↔ (findLineEnd buf len (cur+seg.length)).Ends o := by
  induction seg using crlfFree.induct generalizing cur with
  | case1 => simp
  | case2 c =>
    obtain ⟨hlt,hb,-⟩ := slice_head h
    have hc : c ≠ CR := by simpa [crlfFree] using hs
    exact Prog.ends_loop_again (cur+1) (by simp [lineEndTurn,hb,hc,Int.ne_of_lt hlt]) o
  | case3 d s ih =>
    obtain ⟨hlt,hb,hr⟩ := slice_head h
    obtain ⟨hlt',hb',hr'⟩ := slice_head hr
    obtain ⟨hd,hs'⟩ : d ≠ LF ∧ crlfFree s = true := by simpa [crlfFree] using hs
    have hr2 : slice buf (cur+2) len = s++rest := by
      have he2 : cur+2 = cur+1+1 := by omega
      rw [he2]
      exact hr'
    have he : cur+2+(s.length:Int) = cur+((CR::d::s).length:Int) := by
      simp only [List.length_cons]
      omega
    rw [← he,← ih hr2 hs']
    exact Prog.ends_loop_again (cur+2)
      (by simp [lineEndTurn,hb,hb',hd,Int.ne_of_lt hlt,Int.ne_of_lt hlt']) o
  | case4 c d s hc ih =>
    obtain ⟨hlt,hb,hr⟩ := slice_head h
    have hs' : crlfFree (d::s) = true := by simpa [crlfFree,hc] using hs
    have he : cur+1+((d::s).length:Int) = cur+((c::d::s).length:Int) := by
      simp only [List.length_cons]
      omega
    rw [← he,← ih hr hs']
    exact Prog.ends_loop_again (cur+1) (by simp [lineEndTurn,hb,hc,Int.ne_of_lt hlt]) o

theorem findLineEnd_found {cur : Int} {seg rest : Bytes}
    (h : slice buf cur len = seg++CR::LF::rest) (hs : crlfFree seg = true) :
    (findLineEnd buf len cur).Returns (some (cur+seg.length+2)) := by
  obtain ⟨hlt,hb,hr⟩ := slice_head (slice_split h).2
  obtain ⟨hlt',hb',-⟩ := slice_head hr
  refine (findLineEnd_skip h hs _).mpr (Prog.returns_loop_leave ?_)
  simp [lineEndTurn,hb,hb',Int.ne_of_lt hlt,Int.ne_of_lt hlt']

theorem findLineEnd_lastCr {cur : Int} {seg : Bytes}
    (h : slice buf cur len = seg++[CR]) (hs : crlfFree seg = true) :
    (findLineEnd buf len cur).Returns none := by
  obtain ⟨hlt,hb,hr⟩ := slice_head (slice_split h).2
  have he := slice_end (by omega) hr
  simp only [List.length_nil] at he
  refine (findLineEnd_skip h hs _).mpr (Prog.returns_loop_leave ?_)
  have hlast : cur+(seg.length:Int)+1 = len := by omega
  simp [lineEndTurn,hb,Int.ne_of_lt hlt,hlast]

theorem findLineEnd_none {cur : Int} (hle : cur ≤ len)
    (hs : crlfFree (slice buf cur len) = true) :
    (findLineEnd buf len cur).Returns (some len) := by
  have he := slice_end (m := buf) hle rfl
  have hs' : slice buf cur len = slice buf cur len++[] := by simp
  have hskip := findLineEnd_skip hs' hs (.ok (some len))
  rw [← he] at hskip
  exact hskip.mpr (Prog.returns_loop_leave (by simp [lineEndTurn]))

theorem startsWith_iff (p : Int) (s : Bytes) :
    startsWith buf p s = true ↔ slice buf p (p+s.length) = s := by
  induction s generalizing p with
  | nil => simp [startsWith]
  | cons c s ih =>
    have hlt : p < p+((c::s).length:Int) := by simp only [List.length_cons]; omega
    have he : p+((c::s).length:Int) = p+1+(s.length:Int) := by
      simp only [List.length_cons]
      omega
    rw [slice_cons buf hlt,he]
    simp [startsWith,ih (p+1)]

theorem findMethod_eq {lBeg lEnd : Int} (hle : lBeg ≤ lEnd) :
    findMethod buf lBeg (lEnd-lBeg) =
      if Method.GET.text<+:slice buf lBeg lEnd then some .GET
      else if Method.POST.text<+:slice buf lBeg lEnd then some .POST
      else none := by
  simp only [findMethod,startsWith_iff,← prefix_slice buf hle]
  rfl

theorem findMethod_text {lBeg lEnd : Int} (hle : lBeg ≤ lEnd) (m : Method) {t : Bytes}
    (h : slice buf lBeg lEnd = m.text++t) :
    findMethod buf lBeg (lEnd-lBeg) = some m := by
  rw [findMethod_eq hle,h]
  cases m with
  | GET => simp
  | POST => simp [Method.text]

theorem Method.text_ne_nil (m : Method) : m.text ≠ [] := by cases m <;> decide

theorem Method.text_no_cr (m : Method) : CR∉m.text := by cases m <;> decide

theorem Method.text_no_space (m : Method) : SP∉m.text := by cases m <;> decide

def knownVersion (v : Bytes) : Prop := v = http11 ∨ v = http10

instance (v : Bytes) : Decidable (knownVersion v) := inferInstanceAs (Decidable (_ ∨ _))

theorem http11_known : knownVersion http11 := .inl rfl

theorem strncmpEq_version (p : Int) :
    (strncmpEq buf p http11 8 = true ∨ strncmpEq buf p http10 8 = true) ↔
      knownVersion (slice buf p (p+8)) := by
  rw [knownVersion]
  exact or_congr (strncmpEq_iff buf p http11 (by decide)) (strncmpEq_iff buf p http10 (by decide))

theorem knownVersion.length {v : Bytes} (h : knownVersion v) : v.length = 8 := by
  cases h with
  | inl h => rw [h]; rfl
  | inr h => rw [h]; rfl

theorem knownVersion.no_cr {v : Bytes} (h : knownVersion v) : CR∉v := by
  cases h with
  | inl h => rw [h]; decide
  | inr h => rw [h]; decide

section
variable {p : HttpParser}

def requestLineLoop (buf : Mem) (p : HttpParser) : Prog Fault HttpParser :=
  Prog.loop (requestLineTurn buf) (.method,p)

theorem requestLine_badMethod (hc : p.cur = p.lBeg) (hlt : p.lBeg < p.lEnd)
    (hg : ¬ Method.GET.text<+:slice buf p.lBeg p.lEnd)
    (hp : ¬ Method.POST.text<+:slice buf p.lBeg p.lEnd) :
    (requestLineLoop buf p).Returns { p with lineState := .bad } := by
  apply Prog.returns_loop_leave
  simp [requestLineTurn,hc,Int.ne_of_lt hlt,findMethod_eq (Int.le_of_lt hlt),hg,hp]

def afterMethod (p : HttpParser) (m : Method) (cur : Int) : HttpParser :=
  { p with request.line.method := some m, cur := cur }

theorem requestLine_methodOnly (m : Method) {t : Bytes} (hc : p.cur = p.lBeg)
    (h : slice buf p.lBeg p.lEnd = m.text++t) (ht : t.head? ≠ some SP) :
    ∃ cur, (requestLineLoop buf p).Returns (afterMethod p m cur) := by
  obtain ⟨hlt,-,-⟩ := slice_head
    (h.trans (congrArg (·++t) (List.cons_head_tail m.text_ne_nil).symm))
  have hm := findMethod_text (Int.le_of_lt hlt) m h
  obtain ⟨-,hr⟩ := slice_split h
  cases t with
  | nil =>
    have hlen := congrArg List.length h
    simp only [length_slice,List.append_nil] at hlen
    have he : p.lBeg+(m.text.length:Int) = p.lEnd := by omega
    refine ⟨p.lEnd,Prog.returns_loop_leave ?_⟩
    simp [requestLineTurn,hc,Int.ne_of_lt hlt,hm,he,afterMethod]
  | cons c t =>
    obtain ⟨hlt',hb,-⟩ := slice_head hr
    have hcs : c ≠ SP := by simpa using ht
    refine ⟨p.lBeg+m.text.length+1,Prog.returns_loop_leave ?_⟩
    simp [requestLineTurn,hc,Int.ne_of_lt hlt,hm,Int.ne_of_lt hlt',hb,hcs,afterMethod]

theorem requestLine_toUrl (m : Method) {t : Bytes} (hc : p.cur = p.lBeg)
    (h : slice buf p.lBeg p.lEnd = m.text++SP::t) (o : Except Fault HttpParser) :
    (requestLineLoop buf p).Ends o ↔
      (Prog.loop (requestLineTurn buf)
        (.url,afterMethod p m (p.lBeg+m.text.length+1))).Ends o := by
  obtain ⟨hlt,-,-⟩ := slice_head
    (h.trans (congrArg (·++SP::t) (List.cons_head_tail m.text_ne_nil).symm))
  have hm := findMethod_text (Int.le_of_lt hlt) m h
  obtain ⟨hlt',hb,-⟩ := slice_head (slice_split h).2
  apply Prog.ends_loop_again
  simp [requestLineTurn,hc,Int.ne_of_lt hlt,hm,Int.ne_of_lt hlt',hb,afterMethod]

theorem requestLine_urlOnly (m : Method) {u : Bytes} (hc : p.cur = p.lBeg)
    (h : slice buf p.lBeg p.lEnd = m.text++SP::u)
    (hu : SP∉u ∨ ∃ url, u = url++[SP] ∧ SP∉url) :
    (requestLineLoop buf p).Returns (afterMethod p m p.lEnd) := by
  refine (requestLine_toUrl m hc h _).mpr (Prog.returns_loop_leave ?_)
  obtain ⟨hlt,-,hr⟩ := slice_head (slice_split h).2
  by_cases he : p.lBeg+(m.text.length:Int)+1 = p.lEnd
  · simp [requestLineTurn,afterMethod,he]
  · have hscan : (scanTo buf SP p.lEnd (p.lBeg+m.text.length+1)).Returns p.lEnd := by
      cases hu with
      | inl hu => exact scanTo_miss (by omega) (by rwa [hr])
      | inr hu =>
        obtain ⟨url,he,hu⟩ := hu
        subst he
        have hs := scanTo_hit hr hu
        have hlen := slice_end (by omega) hr
        simp only [List.length_append,List.length_cons,List.length_nil] at hlen
        have hend : p.lBeg+(m.text.length:Int)+1+(url.length:Int)+1 = p.lEnd := by omega
        rwa [hend] at hs
    simp only [requestLineTurn,afterMethod,he,if_false]
    exact hscan.bind (by simp)

def atVersion (p : HttpParser) (m : Method) (url : Bytes) (cur : Int) : HttpParser :=
  { p with request.line := { p.request.line with url := url, method := some m }, cur := cur }

theorem requestLine_toVersion (m : Method) {url t : Bytes} {v : Int} (hc : p.cur = p.lBeg)
    (h : slice buf p.lBeg p.lEnd = m.text++SP::(url++SP::t)) (hu : SP∉url)
    (hv : v = p.lBeg+m.text.length+1+url.length+1) (hlt : v < p.lEnd)
    (o : Except Fault HttpParser) :
    (requestLineLoop buf p).Ends o ↔
      (Prog.loop (requestLineTurn buf) (.version,atVersion p m url v)).Ends o := by
  obtain ⟨hlt',-,hr⟩ := slice_head (slice_split h).2
  have hurl := (slice_split hr).1
  rw [requestLine_toUrl m hc h]
  apply Prog.ends_loop_again
  have hmore : p.lBeg+(m.text.length:Int)+1 ≠ p.lEnd := by omega
  simp only [requestLineTurn,afterMethod,hmore,if_false]
  refine (scanTo_hit hr hu).bind ?_
  have hv' : v-1 = p.lBeg+m.text.length+1+url.length := by omega
  rw [← hv]
  simp [Int.ne_of_lt hlt,hv',hurl,atVersion]

theorem requestLine_good (m : Method) {url t ver : Bytes} {v : Int} (hc : p.cur = p.lBeg)
    (h : slice buf p.lBeg p.lEnd = m.text++SP::(url++SP::t)) (hu : SP∉url)
    (hv : v = p.lBeg+m.text.length+1+url.length+1) (hlt : v < p.lEnd)
    (hver : slice buf v (v+8) = ver) (hk : knownVersion ver) :
    (requestLineLoop buf p).Returns
      { p with request.line := ⟨ver,url,some m⟩, cur := p.lEnd, lineState := .ok } := by
  subst hver
  refine (requestLine_toVersion m hc h hu hv hlt _).mpr (Prog.returns_loop_leave ?_)
  simp [requestLineTurn,atVersion,Int.ne_of_lt hlt,strncmpEq_version,hk]

theorem requestLine_badVersion (m : Method) {url t : Bytes} {v : Int} (hc : p.cur = p.lBeg)
    (h : slice buf p.lBeg p.lEnd = m.text++SP::(url++SP::t)) (hu : SP∉url)
    (hv : v = p.lBeg+m.text.length+1+url.length+1) (hlt : v < p.lEnd)
    (hk : ¬ knownVersion (slice buf v (v+8))) :
    (requestLineLoop buf p).Returns
      { atVersion p m url p.lEnd with lineState := .bad } := by
  refine (requestLine_toVersion m hc h hu hv hlt _).mpr (Prog.returns_loop_leave ?_)
  simp [requestLineTurn,atVersion,Int.ne_of_lt hlt,strncmpEq_version,hk]

end

/-! The URL `/`. -/

theorem slash_no_space : SP∉([47] : Bytes) := by decide

theorem slash_no_cr : CR∉([47] : Bytes) := by decide

/-- A request line that `requestLineParse` accepts: behind the version anything
may follow. -/
structure RawLine where
  method : Method
  url : Bytes
  version : Bytes
  junk : Bytes
  url_no_space : SP∉url
  version_known : knownVersion version
  clean : crlfFree (method.text++SP::(url++SP::(version++junk))) = true

namespace RawLine

def line (l : RawLine) : Bytes := l.method.text++SP::(l.url++SP::(l.version++l.junk))

def text (l : RawLine) : Bytes := l.line++[CR,LF]

def requestLine (l : RawLine) : HttpRequestLine := ⟨l.version,l.url,some l.method⟩

end RawLine

def afterLine (p : HttpParser) (line : HttpRequestLine) (lEnd : Int) : HttpParser :=
  { p with request.line := line, cur := lEnd, lEnd := lEnd, lineState := .ok }

theorem requestLineParse_ok {p : HttpParser} (l : RawLine) {rest : Bytes}
    (hc : p.cur = p.lBeg) (h : slice buf p.cur len = l.text++rest) :
    (requestLineParse buf len p).Returns
      (afterLine p l.requestLine (p.cur+l.text.length)) := by
  have hcrlf : slice buf p.cur len = l.line++CR::LF::rest := by simpa [RawLine.text] using h
  have hfind := findLineEnd_found hcrlf l.clean
  have he : p.cur+(l.line.length:Int)+2 = p.cur+(l.text.length:Int) := by
    simp only [RawLine.text,List.length_append,List.length_cons,List.length_nil]
    omega
  rw [he] at hfind
  refine hfind.bind ?_
  have hline : slice buf p.lBeg (p.cur+l.text.length) =
      l.method.text++SP::(l.url++SP::(l.version++(l.junk++[CR,LF]))) := by
    rw [← hc,(slice_split h).1]
    simp [RawLine.text,RawLine.line]
  obtain ⟨-,-,hu⟩ := slice_head (slice_split hline).2
  obtain ⟨-,-,hv⟩ := slice_head (slice_split hu).2
  obtain ⟨hver,hj⟩ := slice_split hv
  have hjlen := congrArg List.length hj
  simp only [length_slice,List.length_append,List.length_cons,List.length_nil] at hjlen
  rw [l.version_known.length] at hver
  exact requestLine_good l.method rfl hline l.url_no_space rfl
    (by dsimp only; omega) hver l.version_known

inductive LineShape (seg : Bytes) : Prop where
  | badMethod (hg : ¬ Method.GET.text<+:seg) (hp : ¬ Method.POST.text<+:seg)
  | methodOnly (m : Method) (t : Bytes) (h : seg = m.text++t) (ht : t.head? ≠ some SP)
  | urlOnly (m : Method) (u : Bytes) (h : seg = m.text++SP::u)
    (hu : SP∉u ∨ ∃ url, u = url++[SP] ∧ SP∉url)
  | toVersion (m : Method) (url t : Bytes) (h : seg = m.text++SP::(url++SP::t)) (hu : SP∉url)
    (ht : t ≠ [])

theorem line_shape (seg : Bytes) : LineShape seg := by
  by_cases hm : Method.GET.text<+:seg ∨ Method.POST.text<+:seg
  · obtain ⟨m,t,h⟩ : ∃ (m : Method) (t : Bytes), m.text++t = seg := by
      cases hm with
      | inl hm => exact ⟨.GET,hm⟩
      | inr hm => exact ⟨.POST,hm⟩
    by_cases ht : t.head? = some SP
    · obtain ⟨u,he⟩ := List.head?_eq_some_iff.mp ht
      rw [he] at h
      by_cases hu : SP∈u
      · obtain ⟨url,v,he',hurl⟩ := List.eq_append_cons_of_mem hu
        rw [he'] at h
        by_cases hv : v = []
        · exact .urlOnly m (url++[SP]) (by rw [← h,hv]) (.inr ⟨url,rfl,hurl⟩)
        · exact .toVersion m url v h.symm hurl hv
      · exact .urlOnly m u h.symm (.inl hu)
    · exact .methodOnly m t h.symm ht
  · exact .badMethod (not_or.mp hm).1 (not_or.mp hm).2

theorem version_before_crlf {seg url t : Bytes} {a b : Int} (m : Method)
    (h : slice buf a b = seg++[CR,LF])
    (hl : slice buf a b = m.text++SP::(url++SP::t)) (ht : t ≠ [])
    (hk : knownVersion (slice buf (a+m.text.length+1+url.length+1)
      (a+m.text.length+1+url.length+1+8))) :
    ∃ junk, seg = m.text++SP::(url++SP::(slice buf (a+m.text.length+1+url.length+1)
      (a+m.text.length+1+url.length+1+8)++junk)) := by
  generalize hv : a+(m.text.length:Int)+1+url.length+1 = v at hk ⊢
  obtain ⟨hlt,-,hr⟩ := slice_head (slice_split hl).2
  obtain ⟨hlt',hsp,hr'⟩ := slice_head (slice_split hr).2
  rw [hv] at hr'
  obtain ⟨hseg,htail⟩ := slice_split h
  obtain ⟨hlt2,hcr,hr2⟩ := slice_head htail
  obtain ⟨hlt3,-,hr3⟩ := slice_head hr2
  have hb := slice_end (by omega) hr3
  simp only [List.length_nil] at hb
  have hvb : v < b := by
    by_contra hge
    rw [slice_of_le buf (by omega)] at hr'
    exact ht hr'.symm
  -- the space before the version is neither CR nor behind it
  have hne : a+(m.text.length:Int)+1+url.length ≠ a+seg.length := by
    intro he
    rw [he,hcr] at hsp
    exact absurd hsp (by decide)
  have hend : v+8 ≤ a+seg.length := by
    by_contra hge
    have hmem := mem_slice buf (a := v) (b := v+8) (i := a+seg.length) (by omega) (by omega)
    rw [hcr] at hmem
    exact knownVersion.no_cr hk hmem
  refine ⟨slice buf (v+8) (a+seg.length),?_⟩
  have hfront : slice buf a v = m.text++SP::(url++[SP]) := by
    have hl' : slice buf a b = (m.text++SP::(url++[SP]))++t := by simp [hl]
    have := (slice_split hl').1
    rw [← this]
    congr 1
    simp only [List.length_append,List.length_cons,List.length_nil]
    omega
  calc
    seg = slice buf a (a+seg.length) := hseg.symm
    _ = slice buf a v++slice buf v (a+seg.length) := slice_append buf (by omega) (by omega)
    _ = (m.text++SP::(url++[SP]))++(slice buf v (v+8)++slice buf (v+8) (a+seg.length)) := by
      rw [hfront,← slice_append buf (by omega) hend]
    _ = _ := by simp

end AdlServer.Http
