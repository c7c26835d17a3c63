import AdlServer.ParseOutcome

/-! Which received bytes make `parse` throw. -/
namespace AdlServer.Http
open Program Memory Cpp
variable {buf : Mem} {len : Int}

/-- Behind an accepted request line and whole header lines stands a line that begins with a
space: its key would end before it begins. -/
def SpaceFirstInHead (data : Bytes) : Prop :=
  ∃ (l : RawLine) (hs : List RawHeader) (seg rest : Bytes),
    data = l.text++(headersText hs++SP::(seg++CR::LF::rest)) ∧ CR∉seg

/-- A POST head is complete, its length is no `int`, and more data follow. -/
def LengthUnreadable (data : Bytes) : Prop :=
  ∃ (l : RawLine) (hs : List RawHeader) (rest : Bytes) (kv : Bytes×Bytes),
    Posted data l hs rest kv ∧ NoInt kv.2

theorem parse_spaceFirst (h : SpaceFirstInHead (slice buf 0 len)) :
    (parse buf len).Ends (.error .lengthError) := by
  obtain ⟨l,hs,seg,rest,hdata,hcr⟩ := h
  exact holds_spaceFirst hdata hcr

theorem parse_lengthUnreadable (h : LengthUnreadable (slice buf 0 len)) :
    ∃ e, (parse buf len).Ends (.error e) := by
  obtain ⟨l,hs,rest,kv,hpost,hno⟩ := h
  obtain ⟨e,hv⟩ := (stoi_throws_iff kv.2).mpr hno
  exact ⟨e,holds_badLength hpost hv⟩

/-- `parse` throws nothing exactly on the data that hold neither kind of request. -/
theorem parse_never_throws_iff (buf : Mem) (len : Nat) :
    (∀ e, ¬ (parse buf len).Ends (.error e)) ↔
      ¬ SpaceFirstInHead (slice buf 0 len) ∧ ¬ LengthUnreadable (slice buf 0 len) := by
  constructor
  · intro h
    refine ⟨fun hs => h _ (parse_spaceFirst hs),fun hl => ?_⟩
    obtain ⟨e,he⟩ := parse_lengthUnreadable hl
    exact h e he
  · intro h e he
    obtain ⟨hs,hl⟩ := h
    cases (holds_iff_answer (by omega) (.throws e)).mp he with
    | spaceFirst l hds seg rest hdata hcr => exact hs ⟨l,hds,seg,rest,hdata,hcr⟩
    | badLength l hds rest kv _ hpost hv =>
      exact hl ⟨l,hds,rest,kv,hpost,(stoi_throws_iff kv.2).mp ⟨e,hv⟩⟩

def foldedGet : Bytes := Method.GET.text++[32,47,32]++http11++[13,10,32,120,13,10,13,10]

theorem parse_foldedGet_throws :
    ¬ ∀ (buf : Mem) (len : Nat) (e : Fault), ¬ (parse buf len).Ends (.error e) := by
  intro h
  have hdata : slice (ofBytes foldedGet fun _ => 0) 0 (foldedGet.length:Nat) = foldedGet :=
    slice_ofBytes _ _
  refine h (ofBytes foldedGet fun _ => 0) foldedGet.length .lengthError (parse_spaceFirst ?_)
  rw [hdata]
  exact ⟨⟨.GET,[47],http11,[],by decide,.inl rfl,by decide⟩,[],[120],[13,10],by decide,by decide⟩

end AdlServer.Http
