import AdlServer.ParseOutcome

/-! Which received bytes keep `parse` running for ever. -/
namespace AdlServer.Http
open Program Memory Cpp
variable {buf : Mem} {len : Int}

/-- Behind an accepted request line and whole header lines stands a line in which
a CR is followed by something other than LF, and by more data. -/
def LoneCrInHead (data : Bytes) : Prop :=
  ∃ (l : RawLine) (hs : List RawHeader) (seg rest : Bytes) (c d : UInt8),
    data = l.text++(headersText hs++(seg++CR::c::d::rest)) ∧ CR∉seg ∧ c ≠ LF

/-- A POST head is complete, its length is a number that is not positive, and
more data follow. -/
def LengthNotPositive (data : Bytes) : Prop :=
  ∃ (l : RawLine) (hs : List RawHeader) (rest : Bytes) (kv : Bytes×Bytes) (v : Int),
    data = headText l hs++rest ∧ rest ≠ [] ∧ l.method = .POST ∧
      (addHeaders {} hs).find contentLength = some kv ∧ (stoi kv.2).Returns v ∧ v ≤ 0

theorem parse_loneCr (h : LoneCrInHead (slice buf 0 len)) : ¬ (parse buf len).Halts := by
  obtain ⟨l,hs,seg,rest,c,d,hdata,hcr,hc⟩ := h
  exact holds_loneCr hdata hcr hc

theorem parse_lengthNotPositive (h : LengthNotPositive (slice buf 0 len)) :
    ¬ (parse buf len).Halts := by
  obtain ⟨l,hs,rest,kv,v,hdata,hne,hm,hf,hv,hneg⟩ := h
  exact holds_notPositive ⟨hdata,hne,hm,hf⟩ hv hneg

/-- `parse` ends, by a verdict or an exception, exactly on the data that hold
neither kind of request. -/
theorem parse_halts_iff (buf : Mem) (len : Nat) :
    (parse buf len).Halts ↔
      ¬ LoneCrInHead (slice buf 0 len) ∧ ¬ LengthNotPositive (slice buf 0 len) := by
  constructor
  · intro h
    exact ⟨fun hc => parse_loneCr hc h,fun hl => parse_lengthNotPositive hl h⟩
  · intro ⟨hc,hl⟩
    by_contra hno
    cases (holds_iff_answer (by omega) .endless).mp hno with
    | loneCr l hs seg rest c d h hcr hlf => exact hc ⟨l,hs,seg,rest,c,d,h,hcr,hlf⟩
    | notPositive l hs rest kv v h hv hneg =>
      exact hl ⟨l,hs,rest,kv,v,h.data,h.more,h.post,h.length,hv,hneg⟩

def emptyPost : Bytes :=
  Method.POST.text++[32,47,32]++http11++[13,10]++contentLength++[58,32,48,13,10,13,10,120]

theorem parse_emptyPost_endless :
    ¬ ∀ (buf : Mem) (len : Nat), (parse buf len).Halts := by
  intro h
  have hdata : slice (ofBytes emptyPost fun _ => 0) 0 (emptyPost.length:Nat) = emptyPost :=
    slice_ofBytes _ _
  refine parse_lengthNotPositive ?_ (h (ofBytes emptyPost fun _ => 0) emptyPost.length)
  rw [hdata]
  refine ⟨⟨.POST,[47],http11,[],by decide,.inl rfl,by decide⟩,
    [⟨contentLength,58,[48],by decide,by decide,by decide⟩],[120],(contentLength,[48]),0,
    by decide,by decide,rfl,by decide,⟨0,by rfl⟩,by decide⟩

end AdlServer.Http
