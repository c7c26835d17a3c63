import AdlServer.NetBuffer
import AdlServer.ParseOutcome

/-! Where the body of an accepted request lies: the end of head and body is an `int`, and a
length that takes it over the type is accepted with a body behind all received data. -/
namespace AdlServer.Http
open Program Memory Cpp
variable {buf : Mem} {len : Int}

/-- The size consumes received bytes only, the body is the last `v` of them, and `retrieve`
keeps the cursors of a buffer that holds the data in order. -/
structure BodyTaken (buf : Mem) (len v : Int) (r : HttpRequest) : Prop where
  size_pos : 0 < r.parseSize
  size_le : r.parseSize ≤ len
  begins : 0 ≤ r.parseSize-v
  body : r.body = slice buf (r.parseSize-v) r.parseSize
  retrieve : ∀ b : Net.NetBuffer, b.InBounds → b.readable = len →
    ∃ b', (b.retrieve r.parseSize).Returns b' ∧ 0 ≤ b'.r ∧ b'.r ≤ b'.w

/-- A success is a body inside the data, and comes as soon as they hold `v` bytes behind the
head. -/
def BodyInside (buf : Mem) (len v : Int) (rest : Bytes) : Prop :=
  ∃ p, (parse buf len).Returns p ∧ (p.finalState = .success ↔ v ≤ rest.length) ∧
    (p.finalState = .success → BodyTaken buf len v p.request)

section
variable {l : RawLine} {hs : List RawHeader} {rest : Bytes} {kv : Bytes×Bytes} {v : Int}

theorem BodyInside.waits {request : HttpRequest}
    (h : (Outcome.verdict .incomplete request).Holds buf len) (hv : (rest.length:Int) < v) :
    BodyInside buf len v rest := by
  obtain ⟨p,hp,hs,_⟩ := h
  have hn : p.finalState ≠ .success := by
    rw [hs]
    decide
  exact ⟨p,hp,iff_of_false hn (Int.not_le.mpr hv),fun he => absurd he hn⟩

theorem retrieve_inside {b : Net.NetBuffer} {n : Int} (hb : b.InBounds) (h0 : 0 ≤ n)
    (hn : n ≤ b.readable) : ∃ b', (b.retrieve n).Returns b' ∧ 0 ≤ b'.r ∧ b'.r ≤ b'.w := by
  have hr := hb.r_nonneg
  refine ⟨{ b with r := b.r+n },?_,by dsimp only; omega,?_⟩
  · rw [Net.NetBuffer.retrieve,check_pos _ hn]
    exact Prog.returns_self _
  · rw [Net.NetBuffer.readable] at hn
    dsimp only
    omega

theorem bodyTaken (hdata : slice buf 0 len = headText l hs++rest) (hpos : 0 < v)
    (hv : v ≤ rest.length) :
    BodyTaken buf len v { headRequest l hs with
      parseSize := (headText l hs).length+v
      body := slice buf (headText l hs).length ((headText l hs).length+v) } := by
  have hlen := congrArg List.length hdata
  simp only [length_slice,List.length_append] at hlen
  have hhead : ((headText l hs).length:Int)+v-v = (headText l hs).length := by omega
  refine ⟨by dsimp only; omega,by dsimp only; omega,by dsimp only; omega,?_,?_⟩
  · dsimp only
    rw [hhead]
  · intro b hb hr
    exact retrieve_inside hb (by dsimp only; omega) (by dsimp only; omega)

theorem body_fits (h : Posted (slice buf 0 len) l hs rest kv) (hv : (stoi kv.2).Returns v)
    (hpos : 0 < v) (hsum : (headText l hs).length+v < 2^31) :
    BodyInside buf len v rest := by
  have hl := congrArg List.length h.data
  simp only [length_slice,List.length_append] at hl
  have hw : wrapInt ((headText l hs).length+v) = (headText l hs).length+v :=
    wrapInt_of_range (by omega) hsum
  by_cases hle : v ≤ rest.length
  · obtain ⟨p,hp,hs',hr⟩ := holds_body h hv hpos (by rw [hw]; omega)
    rw [hw] at hr
    exact ⟨p,hp,iff_of_true hs' hle,fun _ => hr ▸ bodyTaken h.data hpos hle⟩
  · exact .waits (holds_shortBody h hv hpos (by rw [hw]; omega)) (Int.not_le.mp hle)

theorem body_wraps (h : Posted (slice buf 0 len) l hs rest kv) (hlen : len < 2^31)
    (hv : (stoi kv.2).Returns v) (hsum : 2^31 ≤ (headText l hs).length+v) :
    ¬ BodyInside buf len v rest := by
  have hl := congrArg List.length h.data
  simp only [length_slice,List.length_append] at hl
  have hrange := stoi_range hv
  have hw : wrapInt ((headText l hs).length+v) = (headText l hs).length+v-2^32 :=
    wrapInt_of_overflow hsum (by omega)
  obtain ⟨q,hq,hs',_⟩ := holds_body h hv (by omega) (by rw [hw]; omega)
  intro hin
  obtain ⟨p,hp,hiff,_⟩ := hin
  rw [hp.unique hq] at hiff
  have hle := hiff.mp hs'
  omega

end

/-- With a positive length the body is inside the received data exactly if its end is an
`int`, or no byte of it is there yet. -/
theorem parse_body_inside_iff (buf : Mem) (len : Nat) (hlen : (len:Int) < 2^31) (l : RawLine)
    (hs : List RawHeader) (rest : Bytes) (hdata : slice buf 0 len = headText l hs++rest)
    (hm : l.method = .POST) (kv : Bytes×Bytes)
    (hf : (addHeaders {} hs).find contentLength = some kv) (v : Int)
    (hv : (stoi kv.2).Returns v) (hpos : 0 < v) :
    BodyInside buf len v rest ↔ rest = [] ∨ (headText l hs).length+v < 2^31 := by
  by_cases hne : rest = []
  · have hhead : slice buf 0 len = headText l hs := by rw [hdata,hne,List.append_nil]
    exact iff_of_true (.waits (holds_noBody hm hhead) (by simpa [hne] using hpos)) (.inl hne)
  · have hpost : Posted (slice buf 0 len) l hs rest kv := ⟨hdata,hne,hm,hf⟩
    rw [or_iff_right hne]
    constructor
    · intro hin
      by_contra hge
      exact body_wraps hpost hlen hv (Int.not_lt.mp hge) hin
    · exact body_fits hpost hv hpos

def postRoot : RawLine := ⟨.POST,[47],http11,[],slash_no_space,http11_known,by decide⟩

def lengthHeader (s : Bytes) (h : CR∉s) : RawHeader :=
  ⟨contentLength,58,s,by decide,by decide,h⟩

def hugeLength : RawHeader :=
  lengthHeader [50,49,52,55,52,56,51,54,52,55] (by decide)

def hugePost : Bytes := headText postRoot [hugeLength]++[120]

theorem hugePost_data :
    slice (ofBytes hugePost fun _ => 0) 0 (hugePost.length:Nat) =
      headText postRoot [hugeLength]++[120] := slice_ofBytes _ _

theorem hugePost_accepted : ¬ ∀ (buf : Mem) (len : Nat) (l : RawLine) (hs : List RawHeader)
    (rest : Bytes) (kv : Bytes×Bytes) (v : Int), (len:Int) < 2^31 →
    Posted (slice buf 0 len) l hs rest kv → (stoi kv.2).Returns v → 0 < v →
    BodyInside buf len v rest := by
  intro h
  have hpost : Posted (slice (ofBytes hugePost fun _ => 0) 0 (hugePost.length:Nat)) postRoot
      [hugeLength] [120] (contentLength,hugeLength.value) :=
    ⟨hugePost_data,by decide,rfl,by decide⟩
  have hv : (stoi hugeLength.value).Returns 2147483647 := ⟨0,by decide +kernel⟩
  exact body_wraps hpost (by decide) hv (by decide)
    (h _ _ _ _ _ _ _ (by decide) hpost hv (by decide))

theorem parse_body_inside_iff_hugePost :
    BodyInside (ofBytes hugePost fun _ => 0) hugePost.length 2147483647 [120] ↔
      ([120] : Bytes) = [] ∨ ((headText postRoot [hugeLength]).length:Int)+2147483647 < 2^31 :=
  parse_body_inside_iff _ hugePost.length (by decide) postRoot [hugeLength] [120] hugePost_data
    rfl (contentLength,hugeLength.value) (by decide) 2147483647 ⟨0,by decide +kernel⟩ (by decide)

end AdlServer.Http
