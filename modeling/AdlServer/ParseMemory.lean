import AdlServer.ParseOutcome

/-! Whether what `parse` comes to depends on the memory behind the received bytes. -/
namespace AdlServer.Http
open Program Memory Cpp
variable {buf buf' : Mem} {len : Int}

/-- The data end inside a version: the eight bytes there are not all received. -/
def VersionCut (data : Bytes) : Prop :=
  ∃ (m : Method) (url w x : Bytes), data = m.text++SP::(url++SP::w) ∧ SP∉url ∧ w ≠ [] ∧
    x ≠ [] ∧ knownVersion (w++x) ∧ crlfFree data = true

/-- A POST head is complete, more data follow, and head and body together are no `int`. -/
def BodyWraps (data : Bytes) : Prop :=
  ∃ (l : RawLine) (hs : List RawHeader) (rest : Bytes) (kv : Bytes×Bytes) (v : Int),
    Posted data l hs rest kv ∧ (stoi kv.2).Returns v ∧ 2^31 ≤ (headText l hs).length+v

section
variable {line url t : Bytes} {m : Method}

theorem versionBytes_length : (versionBytes buf m url).length = 8 := by
  rw [versionBytes,length_slice]
  omega

theorem versionBytes_agree (h : slice buf 0 len = slice buf' 0 len)
    (hin : versionAt m url+8 ≤ len) : versionBytes buf m url = versionBytes buf' m url := by
  refine slice_part h ?_ hin
  rw [versionAt]
  omega

theorem version_inside (hcut : ¬ VersionCut (slice buf 0 len))
    (h : LineIn (slice buf 0 len) line) (hl : line = m.text++SP::(url++SP::t)) (hu : SP∉url)
    (ht : t ≠ []) (hk : knownVersion (versionBytes buf m url)) :
    versionAt m url+8 ≤ len := by
  cases h with
  | ended seg rest h hs =>
    obtain ⟨junk,hj⟩ := version_line h hl ht hk
    have hlen := congrArg List.length h
    rw [hj] at hlen
    simp only [length_slice,List.length_append,List.length_cons,versionBytes_length] at hlen
    rw [versionAt]
    omega
  | cut hs hne =>
    by_contra hgt
    obtain ⟨hv,hlt⟩ := version_inLine hl ht
    have hat : slice buf (versionAt m url) len = t := by
      rw [hv]
      exact (slice_head (slice_split (slice_head (slice_split hl).2).2.2).2).2.2
    have hsplit : versionBytes buf m url = t++slice buf len (versionAt m url+8) := by
      rw [versionBytes,slice_append buf (Int.le_of_lt hlt) (by omega),hat]
    have hmore : slice buf len (versionAt m url+8) ≠ [] := by
      refine List.length_pos_iff.mp ?_
      rw [length_slice]
      omega
    exact hcut ⟨m,url,t,_,hl,hu,ht,hmore,hsplit ▸ hk,hs⟩

end

/-- Outside these two kinds of data every rule reads received bytes only. -/
theorem Answer.agree {o : Outcome} (h : slice buf 0 len = slice buf' 0 len)
    (hcut : ¬ VersionCut (slice buf 0 len)) (hwrap : ¬ BodyWraps (slice buf 0 len))
    (ho : Answer buf len o) : Answer buf' len o := by
  cases ho with
  | nothing hd => exact .nothing (h ▸ hd)
  | lastCr seg hd hs => exact .lastCr seg (h ▸ hd) hs
  | badMethod line hd hg hp => exact .badMethod line (h ▸ hd) hg hp
  | noVersion line t m hd hl ht => exact .noVersion line t m (h ▸ hd) hl ht
  | badVersion line url t m hd hl hu ht hk =>
    refine .badVersion line url t m (h ▸ hd) hl hu ht fun hk' => hk ?_
    have hin := version_inside (h ▸ hcut) (h ▸ hd) hl hu ht hk'
    rwa [versionBytes_agree h hin]
  | lineOnly url t m hs hd hu ht hk =>
    have hne : slice buf 0 len ≠ [] := by
      rw [hd]
      simp
    have hin := version_inside hcut (.cut hs hne) hd hu ht hk
    rw [versionBytes_agree h hin] at hk ⊢
    exact .lineOnly url t m (h ▸ hs) (h ▸ hd) hu ht hk
  | openHead l hs tail hd ho => exact .openHead l hs tail (h ▸ hd) ho
  | noSpace l hs seg rest hd hne hcr hsp => exact .noSpace l hs seg rest (h ▸ hd) hne hcr hsp
  | spaceFirst l hs seg rest hd hcr => exact .spaceFirst l hs seg rest (h ▸ hd) hcr
  | loneCr l hs seg rest c d hd hcr hc => exact .loneCr l hs seg rest c d (h ▸ hd) hcr hc
  | get l hs rest hm hd => exact .get l hs rest hm (h ▸ hd)
  | noBody l hs hm hd => exact .noBody l hs hm (h ▸ hd)
  | noLength l hs rest hm hd hne hf => exact .noLength l hs rest hm (h ▸ hd) hne hf
  | badLength l hs rest kv e hp hv => exact .badLength l hs rest kv e (h ▸ hp) hv
  | notPositive l hs rest kv v hp hv hneg => exact .notPositive l hs rest kv v (h ▸ hp) hv hneg
  | shortBody l hs rest kv v hp hv hpos hw =>
    exact .shortBody l hs rest kv v (h ▸ hp) hv hpos hw
  | body l hs rest kv v hp hv hpos hw =>
    have hsum : (headText l hs).length+v < 2^31 := by
      by_contra hge
      exact hwrap ⟨l,hs,rest,kv,v,hp,hv,Int.not_lt.mp hge⟩
    have hsum' : wrapInt ((headText l hs).length+v) = (headText l hs).length+v :=
      wrapInt_of_range (by omega) hsum
    have hbody : slice buf (headText l hs).length ((headText l hs).length+v) =
        slice buf' (headText l hs).length ((headText l hs).length+v) :=
      slice_part h (by omega) (hsum' ▸ hw)
    rw [hbody]
    exact .body l hs rest kv v (h ▸ hp) hv hpos hw

theorem knownVersion.no_zero {v : Bytes} (h : knownVersion v) : (0:UInt8)∉v := by
  cases h with
  | inl h => rw [h]; decide
  | inr h => rw [h]; decide

def Differs (data : Bytes) : Prop :=
  ∃ (buf buf' : Mem) (o : Outcome), slice buf 0 data.length = data ∧
    slice buf' 0 data.length = data ∧ o.Holds buf data.length ∧ ¬ o.Holds buf' data.length

section
variable {data : Bytes}

section
variable {m : Method} {url w x : Bytes}

theorem cut_completed (hdata : data = m.text++SP::(url++SP::w)) (hu : SP∉url) (hw : w ≠ [])
    (hk : knownVersion (w++x)) (hs : crlfFree data = true) (hbuf : slice buf 0 data.length = data)
    (hx : slice buf data.length (data.length+x.length) = x) :
    (Outcome.verdict .incomplete { line := ⟨w++x,url,some m⟩ }).Holds buf data.length := by
  have hlen := congrArg List.length hdata
  have hklen := hk.length
  simp only [List.length_append,List.length_cons] at hlen hklen
  have hat := (slice_head (slice_split (slice_head (slice_split (hbuf.trans hdata)).2).2.2).2).2.2
  have hend : (data.length:Int)+x.length = versionAt m url+8 := by
    rw [versionAt]
    omega
  have hver : versionBytes buf m url = w++x := by
    rw [versionBytes,← hend,slice_append buf (b := data.length) ?_ (by omega),hx]
    · congr 1
      rw [← hat,versionAt,Int.zero_add]
    · rw [versionAt]
      omega
  have hgood := holds_lineOnly (by omega) (hbuf.symm ▸ hs) (hbuf.trans hdata) hu hw (hver ▸ hk)
  rwa [hver] at hgood

theorem cut_broken (hdata : data = m.text++SP::(url++SP::w)) (hu : SP∉url) (hw : w ≠ [])
    (hlt : w.length < 8) (hs : crlfFree data = true) (hbuf : slice buf 0 data.length = data)
    (hzero : buf data.length = 0) :
    (Outcome.verdict .failed { line := { url := url, method := some m } }).Holds buf
      data.length := by
  have hlen := congrArg List.length hdata
  simp only [List.length_append,List.length_cons] at hlen
  have hbad : ¬ knownVersion (versionBytes buf m url) := by
    intro hk
    refine hk.no_zero ?_
    rw [← hzero]
    refine mem_slice buf ?_ ?_
    · rw [versionAt]
      omega
    · rw [versionAt]
      omega
  have hne : data ≠ [] := by
    rw [hdata]
    simp
  exact holds_badVersion (by omega) (hbuf.symm ▸ .cut hs hne) hdata hu hw hbad

end

theorem differs_of_versionCut (h : VersionCut data) : Differs data := by
  obtain ⟨m,url,w,x,hdata,hu,hw,hx,hk,hs⟩ := h
  have hpos := List.length_pos_iff.mpr hx
  have hklen := hk.length
  rw [List.length_append] at hklen
  have hall := slice_split (slice_ofBytes (data++x) fun _ => 0)
  rw [Int.zero_add,List.length_append,Int.natCast_add] at hall
  have hgood := cut_completed hdata hu hw hk hs hall.1 hall.2
  have hbad := cut_broken hdata hu hw (by omega) hs (slice_ofBytes data fun _ => 0)
    (ofBytes_behind _ _ (Int.le_refl _))
  refine ⟨_,ofBytes data fun _ => 0,_,hall.1,slice_ofBytes _ _,hgood,fun hok => ?_⟩
  cases hok.unique hbad

theorem differs_of_bodyWraps (hlen : (data.length:Int) < 2^31) (h : BodyWraps data) :
    Differs data := by
  obtain ⟨l,hs,rest,kv,v,hp,hv,hsum⟩ := h
  have hl := congrArg List.length hp.data
  simp only [List.length_append] at hl
  have hrange := stoi_range hv
  have hw : wrapInt ((headText l hs).length+v) ≤ data.length := by
    rw [wrapInt_of_overflow hsum (by omega)]
    omega
  have hbody (c : UInt8) := holds_body ((slice_ofBytes data fun _ => c).symm ▸ hp) hv (by omega)
    hw
  refine ⟨ofBytes data fun _ => 0,ofBytes data fun _ => 1,_,slice_ofBytes _ _,
    slice_ofBytes _ _,hbody 0,fun hone => ?_⟩
  have heq := hone.unique (hbody 1)
  simp only [Outcome.verdict.injEq,HttpRequest.mk.injEq,true_and] at heq
  have hbyte := slice_inj heq (i := data.length) (by omega) (by omega)
  rw [ofBytes_behind _ _ (Int.le_refl _),ofBytes_behind _ _ (Int.le_refl _)] at hbyte
  exact absurd hbyte (by decide)

end

/-- Whatever stands behind the received bytes `parse` comes to the same, exactly if they do not
end in a version and head and body together are an `int`. -/
theorem parse_memory_iff (data : Bytes) (hlen : (data.length:Int) < 2^31) :
    (∀ buf buf' : Mem, slice buf 0 data.length = data → slice buf' 0 data.length = data →
      ∀ o : Outcome, o.Holds buf data.length ↔ o.Holds buf' data.length) ↔
      ¬ VersionCut data ∧ ¬ BodyWraps data := by
  constructor
  · intro hall
    have hno : ¬ Differs data := by
      intro hd
      obtain ⟨buf,buf',o,hbuf,hbuf',ho,hno⟩ := hd
      exact hno ((hall buf buf' hbuf hbuf' o).mp ho)
    exact ⟨fun h => hno (differs_of_versionCut h),fun h => hno (differs_of_bodyWraps hlen h)⟩
  · intro h buf buf' hbuf hbuf' o
    obtain ⟨hcut,hwrap⟩ := h
    rw [holds_iff_answer (by omega),holds_iff_answer (by omega)]
    constructor
    · exact Answer.agree (hbuf.trans hbuf'.symm) (by rwa [hbuf]) (by rwa [hbuf])
    · exact Answer.agree (hbuf'.trans hbuf.symm) (by rwa [hbuf']) (by rwa [hbuf'])

def cutGet : Bytes := Method.GET.text++[32,47,32,72]

theorem cutGet_versionCut : VersionCut cutGet :=
  ⟨.GET,[47],[72],[84,84,80,47,49,46,49],rfl,by decide,by decide,by decide,.inl rfl,by decide⟩

theorem parse_cutGet_depends : ¬ ∀ data : Bytes, (data.length:Int) < 2^31 →
    ∀ buf buf' : Mem, slice buf 0 data.length = data → slice buf' 0 data.length = data →
      ∀ o : Outcome, o.Holds buf data.length ↔ o.Holds buf' data.length := by
  intro hall
  obtain ⟨buf,buf',o,hbuf,hbuf',ho,hno⟩ := differs_of_versionCut cutGet_versionCut
  exact hno ((hall cutGet (by decide) buf buf' hbuf hbuf' o).mp ho)

theorem parse_memory_iff_cutGet :
    (∀ buf buf' : Mem, slice buf 0 cutGet.length = cutGet →
      slice buf' 0 cutGet.length = cutGet →
      ∀ o : Outcome, o.Holds buf cutGet.length ↔ o.Holds buf' cutGet.length) ↔
      ¬ VersionCut cutGet ∧ ¬ BodyWraps cutGet :=
  parse_memory_iff cutGet (by decide)

end AdlServer.Http
