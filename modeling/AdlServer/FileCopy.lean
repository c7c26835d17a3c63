import AdlServer.BufferGrowth

/-! `readFd` on a file, as `sendInLoop` uses it: with an offset it is `pread` at that offset and
the last count, without one `read` at the descriptor's position. -/
namespace AdlServer.Net
open Program Memory Cpp NetBuffer

/-- A file, what its reads give (call by call: nothing is an interruption, and a count is cut
down to what is asked for and what is left), and the positions whose bytes they have given. -/
structure FileReads where
  content : Bytes
  position : Nat
  gives : Nat → Option Nat
  calls : Nat := 0
  given : List Nat := []

namespace FileReads

/-- `read`, or with an offset `pread`, which leaves the position alone. -/
def read (s : FileReads) (count : Int) (offset : Option Int) : FileReads×ReadAnswer :=
  match s.gives s.calls with
  | none => ({ s with calls := s.calls+1 },.fail .EINTR)
  | some n =>
    let start := (offset.map Int.toNat).getD s.position
    let got := (s.content.drop start).take (min (max 1 n) count.toNat)
    ({ s with
        calls := s.calls+1
        position := if offset.isNone then start+got.length else s.position
        given := s.given++List.range' start got.length },.bytes got)

end FileReads

/-- The rest of the file is in the buffer, each byte from its own position and in order. -/
def Copied (b : NetBuffer) (content : Bytes) (off : Nat) (r : ReadReturn×FileReads×NetBuffer) :
    Prop :=
  r.2.1.given = List.range' off (content.length-off) ∧
    r.2.2.Holds (b.contents++content.drop off)

/-- `pread` is called once before the end: its first answer is all that is left, and neither
that nor the next is an interruption. -/
def OneRead (b : NetBuffer) (left : Nat) (gives : Nat → Option Nat) : Prop :=
  ∃ n, gives 0 = some n ∧
    (left = 0 ∨ left ≤ max 1 n ∧ (left:Int) ≤ b.writeable ∧ gives 1 ≠ none)

namespace FileReads
variable {s : FileReads} {c : Int} {a : Option Int} {n : Nat}

theorem read_interrupted (h : s.gives s.calls = none) :
    s.read c a = ({ s with calls := s.calls+1 },.fail .EINTR) := by
  simp [read,h]

def start (s : FileReads) (offset : Option Int) : Nat := (offset.map Int.toNat).getD s.position

def piece (s : FileReads) (count : Int) (offset : Option Int) (n : Nat) : Bytes :=
  (s.content.drop (s.start offset)).take (min (max 1 n) count.toNat)

def behind (s : FileReads) (count : Int) (offset : Option Int) (n : Nat) : FileReads where
  content := s.content
  position :=
    if offset.isNone then s.start offset+(s.piece count offset n).length else s.position
  gives := s.gives
  calls := s.calls+1
  given := s.given++List.range' (s.start offset) (s.piece count offset n).length

theorem read_piece (h : s.gives s.calls = some n) :
    s.read c a = (s.behind c a n,.bytes (s.piece c a n)) := by
  rw [read]
  rw [h]
  rfl

theorem piece_length : (s.piece c a n).length =
    min (min (max 1 n) c.toNat) (s.content.length-s.start a) := by
  rw [piece,List.length_take,List.length_drop]

theorem piece_ne_nil (hcount : 1 ≤ c) (h : s.start a < s.content.length) :
    s.piece c a n ≠ [] := by
  refine List.length_pos_iff.mp ?_
  rw [piece_length]
  omega

theorem piece_fits (hcount : 1 ≤ c) : ((s.piece c a n).length : Int) ≤ c := by
  rw [piece_length]
  omega

theorem piece_split : s.content.drop (s.start a) = s.piece c a n++
    s.content.drop (s.start a+(s.piece c a n).length) := by
  have htake := List.prefix_iff_eq_take.mp
    (List.take_prefix (min (max 1 n) c.toNat) (s.content.drop (s.start a)))
  rw [← List.drop_drop]
  conv_lhs => rw [← List.take_append_drop (s.piece c a n).length
    (s.content.drop (s.start a))]
  rw [piece,← htake]

theorem read_end (h : s.gives s.calls ≠ none) (hend : s.content.length ≤ s.start a) :
    ∃ t, s.read c a = (t,.bytes []) ∧ t.given = s.given := by
  obtain ⟨m,hm⟩ := Option.ne_none_iff_exists'.mp h
  have hlen := piece_length (s := s) (c := c) (a := a) (n := m)
  have hnil : s.piece c a m = [] := List.eq_nil_of_length_eq_zero (by omega)
  refine ⟨s.behind c a m,by rw [read_piece hm,hnil],?_⟩
  rw [behind,hnil]
  exact List.append_nil _

end FileReads

/-! Without an offset the descriptor's position goes along with what has been read. -/

def FileLeft (content : Bytes) (gives : Nat → Option Nat) (s : FileReads) (_b : NetBuffer)
    (rest : Bytes) : Prop :=
  s.content = content ∧ s.gives = gives ∧ s.position ≤ content.length ∧
    rest = content.drop s.position ∧ s.given = List.range' 0 s.position

theorem file_feeds (content : Bytes) {gives : Nat → Option Nat} {bound : Nat}
    (hbound : ∀ k, bound ≤ k → gives k ≠ none) :
    Feeds FileReads.read true (FileLeft content gives)
      (fun s => s.given = List.range' 0 content.length) fun s => bound-s.calls := by
  intro s b rest hwf hleft
  obtain ⟨hc,hgives,hpos,hrest,hgiven⟩ := hleft
  have hroom := hwf.writeable_pos
  cases hn : s.gives s.calls with
  | none =>
    have hlt : s.calls < bound := by
      by_contra hle
      exact hbound s.calls (by omega) (hgives ▸ hn)
    refine .interrupted _ (FileReads.read_interrupted hn) ⟨hc,hgives,hpos,hrest,hgiven⟩ ?_
    dsimp only
    omega
  | some n =>
    have hread := FileReads.read_piece (c := b.writeable) (a := none) hn
    have hlen := FileReads.piece_length (s := s) (c := b.writeable) (a := none) (n := n)
    have hstart : s.start none = s.position := rfl
    have hgiven' : (s.behind b.writeable none n).given =
        List.range' 0 (s.position+(s.piece b.writeable none n).length) := by
      rw [FileReads.behind,hgiven,hstart,← List.range'_append_1,Nat.zero_add]
    rw [hstart,hc] at hlen
    by_cases hend : s.position = content.length
    · have hnil : s.piece b.writeable none n = [] := List.eq_nil_of_length_eq_zero (by omega)
      refine .ended _ (by rw [hread,hnil]; rfl) (by rw [hrest,hend,List.drop_length]) ?_
      rw [hgiven',hnil,hend]
      rfl
    · have hmore : s.start none < s.content.length := by
        rw [hstart,hc]
        omega
      refine .got _ _ (content.drop (s.position+(s.piece b.writeable none n).length)) hread
        (FileReads.piece_ne_nil hroom hmore) ?_ (FileReads.piece_fits hroom)
        (fun d e _ _ => ⟨hc,hgives,?_,rfl,hgiven'⟩) ?_
      · rw [hrest,← hc,← hstart,FileReads.piece_split]
      · simp only [FileReads.behind,Option.isNone_none,if_true,hstart]
        omega
      · simp only [FileReads.behind]
        omega

/-! With an offset each read starts from the last count, whatever that was. -/

section
variable {content : Bytes} {gives : Nat → Option Nat} {off : Nat} {b : NetBuffer}

theorem next_of_prefix {given rest : List Nat} {p left : Nat}
    (h : given++p::rest <+: List.range' off left) : p = off+given.length := by
  have hget : (List.range' off left)[given.length]? = some p := by
    obtain ⟨t,ht⟩ := h
    rw [← ht]
    simp
  obtain ⟨_,hp⟩ := List.getElem?_eq_some_iff.mp hget
  rw [List.getElem_range',Nat.one_mul] at hp
  exact hp.symm

/-- How a copy goes that is not going to be right. -/
inductive OffTrack (b : NetBuffer) (content : Bytes) (gives : Nat → Option Nat) (off : Nat)
    (s : ReadState FileReads) : Prop where
  | start (hb : s.buffer = b) (hcalls : s.source.calls = 0) (hsize : s.getSize = 0)
    (hgiven : s.source.given = [])
  | second (g : Nat) (hcalls : s.source.calls = 1) (hsize : s.getSize = g) (hpos : 0 < g)
    (hgiven : s.source.given = List.range' off g)
    (hbad : g < content.length-off ∨ g = content.length-off ∧ gives 1 = none)
  -- the next read starts before the end, at a wrong position
  | astray (hlow : -1 ≤ s.getSize) (hnext : off+s.getSize < content.length)
    (hwrong : s.getSize ≠ s.source.given.length)
  | wrong (h : ¬ s.source.given <+: List.range' off (content.length-off))

structure Lost (b : NetBuffer) (content : Bytes) (gives : Nat → Option Nat) (off : Nat)
    (s : ReadState FileReads) : Prop where
  wf : s.buffer.Wf
  content_eq : s.source.content = content
  gives_eq : s.source.gives = gives
  track : OffTrack b content gives off s

theorem start_readAt (hoff : 0 < off) (s : ReadState FileReads) :
    s.source.start (readAt off s) = ((off:Int)+s.getSize).toNat := by
  have hpos : (0:Int) < off := by omega
  rw [readAt,if_pos hpos]
  rfl

structure Got (content : Bytes) (gives : Nat → Option Nat) (off : Nat) (s : ReadState FileReads)
    (n : Nat) (piece : Bytes) (t : FileReads) : Prop where
  read : FileReads.read s.source s.buffer.writeable (readAt off s) = (t,.bytes piece)
  length : piece.length = min (min (max 1 n) s.buffer.writeable.toNat)
    (content.length-((off:Int)+s.getSize).toNat)
  content_eq : t.content = content
  gives_eq : t.gives = gives
  calls : t.calls = s.source.calls+1
  given : t.given = s.source.given++List.range' ((off:Int)+s.getSize).toNat piece.length

section
variable {s : ReadState FileReads} {n : Nat} {piece : Bytes} {t : FileReads}

theorem Lost.got (hoff : 0 < off) (h : Lost b content gives off s)
    (hn : s.source.gives s.source.calls = some n) :
    ∃ piece t, Got content gives off s n piece t := by
  have hlen := FileReads.piece_length (s := s.source) (c := s.buffer.writeable)
    (a := readAt off s) (n := n)
  rw [start_readAt hoff,h.content_eq] at hlen
  refine ⟨_,_,FileReads.read_piece hn,hlen,h.content_eq,h.gives_eq,rfl,?_⟩
  rw [FileReads.behind,start_readAt hoff]

theorem Got.ne_nil (hg : Got content gives off s n piece t) (hroom : 1 ≤ s.buffer.writeable)
    (hle : off ≤ content.length) (hoff : 0 < off)
    (hlt : (off:Int)+s.getSize < content.length) : piece ≠ [] := by
  have hlen := hg.length
  refine List.length_pos_iff.mp ?_
  omega

theorem Lost.goes (h : Lost b content gives off s) (hg : Got content gives off s n piece t)
    (hne : piece ≠ []) (ht : ∀ e, OffTrack b content gives off (filled s t piece e)) :
    Prog.Ensures (readTurn FileReads.read off s)
      (Prog.Kept (Lost b content gives off) fun r => ¬ Copied b content off r)
      fun _ => False := by
  have hroom := h.wf.writeable_pos
  have hlen := hg.length
  have hfit : (piece.length:Int) ≤ s.buffer.writeable := by omega
  exact readTurn_got_ensures hne hg.read h.wf.toInBounds hfit
    fun e he => ⟨he,hg.content_eq,hg.gives_eq,ht e⟩

theorem Got.second (hg : Got content gives off s n piece t)
    (hno : ¬ OneRead b (content.length-off) gives) (hn : gives 0 = some n)
    (hb : s.buffer = b) (hcalls : s.source.calls = 0) (hsize : s.getSize = 0)
    (hgiven : s.source.given = []) (hne : piece ≠ []) (e : NetBuffer) :
    OffTrack b content gives off (filled s t piece e) := by
  have hlen := hg.length
  have hg' := hg.given
  have hpos := List.length_pos_iff.mpr hne
  rw [hsize,Int.add_zero,Int.toNat_natCast] at hlen hg'
  refine .second piece.length ?_ rfl hpos ?_ ?_
  · rw [filled,hg.calls,hcalls]
  · rw [filled,hg',hgiven,List.nil_append]
  · by_cases hall : piece.length < content.length-off
    · exact .inl hall
    · refine .inr ⟨by omega,?_⟩
      by_contra hnext
      rw [hb] at hlen
      exact hno ⟨n,hn,.inr ⟨by omega,by omega,hnext⟩⟩

theorem Got.astray (hg : Got content gives off s n piece t) {g : Nat} (hsize : s.getSize = g)
    (hpos : 0 < g) (hfirst : s.source.given = List.range' off g) (hne : piece ≠ [])
    (e : NetBuffer) :
    OffTrack b content gives off (filled s t piece e) := by
  have hlen := hg.length
  have hnpos := List.length_pos_iff.mpr hne
  refine .astray ?_ ?_ ?_
  · dsimp only [filled]
    omega
  · dsimp only [filled]
    omega
  · rw [filled,hg.given,hfirst]
    simp only [List.length_append,List.length_range']
    omega

theorem Got.wrong (hg : Got content gives off s n piece t) (hoff : 0 < off)
    (hwrong : s.getSize ≠ s.source.given.length) (hne : piece ≠ []) (e : NetBuffer) :
    OffTrack b content gives off (filled s t piece e) := by
  refine .wrong fun hprefix => hwrong ?_
  have hpos := List.length_pos_iff.mpr hne
  obtain ⟨k,hk⟩ := Nat.exists_eq_add_of_lt hpos
  rw [Nat.zero_add] at hk
  rw [filled,hg.given,hk,List.range'_succ] at hprefix
  have := next_of_prefix hprefix
  omega

theorem Got.stays_wrong (hg : Got content gives off s n piece t)
    (hwrong : ¬ s.source.given <+: List.range' off (content.length-off)) (e : NetBuffer) :
    OffTrack b content gives off (filled s t piece e) := by
  refine .wrong fun hprefix => hwrong ?_
  rw [filled,hg.given] at hprefix
  exact (List.prefix_append _ _).trans hprefix

theorem Got.not_copied (hg : Got content gives off s n [] t)
    (hwrong : ¬ s.source.given <+: List.range' off (content.length-off)) (r : ReadReturn)
    (d : NetBuffer) : ¬ Copied b content off (r,t,d) := by
  intro hcopied
  have hall := hcopied.1
  dsimp only at hall
  rw [hg.given,List.length_nil,List.range'_zero,List.append_nil] at hall
  exact hwrong (hall ▸ List.prefix_rfl)

theorem lost_turn (hoff : 0 < off) (hle : off ≤ content.length)
    (hno : ¬ OneRead b (content.length-off) gives) (h : Lost b content gives off s) :
    Prog.Ensures (readTurn FileReads.read off s)
      (Prog.Kept (Lost b content gives off) fun r => ¬ Copied b content off r)
      fun _ => False := by
  have hroom := h.wf.writeable_pos
  cases hn : s.source.gives s.source.calls with
  | none =>
    have hturn := readTurn_interrupted (k := off)
      (FileReads.read_interrupted (c := s.buffer.writeable) (a := readAt off s) hn)
    intro o ho
    rw [(hturn.ends_iff o).mp ho]
    refine ⟨h.wf,h.content_eq,h.gives_eq,.astray (Int.le_refl _) ?_ ?_⟩
    · dsimp only
      omega
    · dsimp only
      omega
  | some n =>
    obtain ⟨piece,t,hg⟩ := h.got hoff hn
    rw [h.gives_eq] at hn
    cases h.track with
    | start hb hcalls hsize hgiven =>
      rw [hcalls] at hn
      have hleft : content.length-off ≠ 0 := fun hzero => hno ⟨n,hn,.inl hzero⟩
      have hne := hg.ne_nil hroom hle hoff (by omega)
      exact h.goes hg hne (hg.second hno hn hb hcalls hsize hgiven hne)
    | second g hcalls hsize hpos hfirst hbad =>
      rw [hcalls] at hn
      have hshort : g < content.length-off := by
        cases hbad with
        | inl hlt => exact hlt
        | inr hlast => cases hn.symm.trans hlast.2
      have hne := hg.ne_nil hroom hle hoff (by omega)
      exact h.goes hg hne (hg.astray hsize hpos hfirst hne)
    | astray _ hnext hwrong =>
      have hne := hg.ne_nil hroom hle hoff hnext
      exact h.goes hg hne (hg.wrong hoff hwrong hne)
    | wrong hwrong =>
      by_cases hne : piece = []
      · subst hne
        have hturn := readTurn_closed (k := off) hg.read
        intro o ho
        rw [(hturn.ends_iff o).mp ho]
        exact hg.not_copied hwrong _ _
      · exact h.goes hg hne (hg.stays_wrong hwrong)

end

def openFile (content : Bytes) (off : Nat) (gives : Nat → Option Nat) : FileReads where
  content := content
  position := off
  gives := gives

theorem read_rest (hoff : 0 < off) {n : Nat} (hn : gives 0 = some n)
    (hall : content.length-off = 0 ∨
      content.length-off ≤ max 1 n ∧ ((content.length-off : Nat):Int) ≤ b.writeable)
    (s : ReadState FileReads) (hs : s.source = openFile content off gives) (hb : s.buffer = b)
    (hsize : s.getSize = 0) :
    ∃ t, FileReads.read s.source s.buffer.writeable (readAt off s) =
        (t,.bytes (content.drop off)) ∧ t.content = content ∧ t.gives = gives ∧ t.calls = 1 ∧
      t.given = List.range' off (content.length-off) := by
  have hread := FileReads.read_piece (s := s.source) (c := b.writeable)
    (a := readAt off s) (n := n) (by rw [hs]; exact hn)
  have hstart : s.source.start (readAt off s) = off := by
    rw [start_readAt hoff,hsize]
    omega
  have hpiece : s.source.piece b.writeable (readAt off s) n = content.drop off := by
    rw [FileReads.piece,hstart,hs]
    refine List.take_of_length_le ?_
    rw [List.length_drop]
    dsimp only [openFile]
    omega
  refine ⟨s.source.behind b.writeable (readAt off s) n,by rw [hb,hread,hpiece],?_,?_,?_,?_⟩
  · rw [FileReads.behind,hs]
    rfl
  · rw [FileReads.behind,hs]
    rfl
  · rw [FileReads.behind,hs]
    rfl
  · rw [FileReads.behind,hpiece,hstart,List.length_drop,hs]
    rfl

theorem turn_rest (hoff : 0 < off) (hwf : b.Wf) {n : Nat} (hn : gives 0 = some n)
    (hzero : content.length-off ≠ 0)
    (hall : content.length-off ≤ max 1 n ∧ ((content.length-off : Nat):Int) ≤ b.writeable) :
    ∃ (t : FileReads) (d : NetBuffer), d.InBounds ∧ d.alloc = b.alloc ∧
      d.contents = b.contents++content.drop off ∧
      d.readable = b.readable+(content.length-off : Nat) ∧ t.content = content ∧
      t.gives = gives ∧ t.calls = 1 ∧ t.given = List.range' off (content.length-off) ∧
      ∀ o, (readTurn FileReads.read off
          { source := openFile content off gives, buffer := b }).Ends o ↔ (do
        let e ← d.checkSmall
        pure (.again (filled { source := openFile content off gives, buffer := b } t
          (content.drop off) e)) : Prog Fault (Turn (ReadState FileReads) _)).Ends o := by
  obtain ⟨t,hread,hc,hg,hcalls,hgiven⟩ := read_rest hoff hn (.inr hall)
    { source := openFile content off gives, buffer := b } rfl rfl rfl
  have hlen : (content.drop off).length = content.length-off := List.length_drop
  have hne : content.drop off ≠ [] := List.length_pos_iff.mp (by omega)
  obtain ⟨d,_,hin,ha,hd,hr,hturn⟩ := readTurn_got hne hread hwf.toInBounds
    (by rw [hlen]; exact hall.2)
  rw [hlen] at hr
  exact ⟨t,d,hin,ha,hd,hr,hc,hg,hcalls,hgiven,hturn⟩

theorem copy_returns (hoff : 0 < off) (hle : off ≤ content.length) (hwf : b.Wf)
    (hone : OneRead b (content.length-off) gives)
    (hroom : content.length-off = 0 ∨
      Growable b.alloc (b.readable+(content.length-off : Nat))) :
    ∃ r, (readFd FileReads.read (openFile content off gives) b off).Returns r ∧
      Copied b content off r := by
  obtain ⟨n,hn,hall⟩ := hone
  by_cases hzero : content.length-off = 0
  · have hnil : content.drop off = [] := List.drop_eq_nil_of_le (by omega)
    obtain ⟨t,hread,_,_,_,hgiven⟩ := read_rest hoff hn (.inl hzero)
      { source := openFile content off gives, buffer := b } rfl rfl rfl
    rw [hnil] at hread
    refine ⟨_,Prog.returns_loop_leave (readTurn_closed hread),hgiven,?_⟩
    rw [hnil,List.append_nil]
    exact ⟨hwf,rfl⟩
  · obtain ⟨hcount,hfit,hnext⟩ := hall.resolve_left hzero
    obtain ⟨t,d,hin,ha,hd,hr,hc,hg,hcalls,hgiven,hturn⟩ :=
      turn_rest hoff hwf hn hzero ⟨hcount,hfit⟩
    have hgrow : Growable d.alloc d.readable := by
      rw [ha,hr]
      exact hroom.resolve_left hzero
    obtain ⟨e,he,hh,_⟩ := checkSmall_growable hin hgrow (Int.le_refl _)
    have hagain := (hturn _).mpr (he.bind (Prog.returns_self _))
    -- the next read starts at the end
    obtain ⟨u,hread,hgiven'⟩ := FileReads.read_end (s := t) (c := e.writeable)
      (a := readAt off (filled { source := openFile content off gives, buffer := b } t
        (content.drop off) e)) (by rw [hg,hcalls]; exact hnext) (by
        have hstart := start_readAt hoff (filled
          { source := openFile content off gives, buffer := b } t (content.drop off) e)
        dsimp only [filled] at hstart ⊢
        rw [hstart,hc,List.length_drop]
        omega)
    refine ⟨_,(Prog.ends_loop_again _ hagain _).mpr
      (Prog.returns_loop_leave (readTurn_closed hread)),hgiven'.trans hgiven,?_⟩
    rw [← hd]
    exact hh

theorem copy_endless (hoff : 0 < off) (hwf : b.Wf) (hone : OneRead b (content.length-off) gives)
    (hzero : content.length-off ≠ 0)
    (hroom : ¬ Growable b.alloc (b.readable+(content.length-off : Nat))) :
    ¬ (readFd FileReads.read (openFile content off gives) b off).Halts := by
  obtain ⟨n,hn,hall⟩ := hone
  obtain ⟨hcount,hfit,_⟩ := hall.resolve_left hzero
  obtain ⟨t,d,hin,ha,_,hr,_,_,_,_,hturn⟩ := turn_rest hoff hwf hn hzero ⟨hcount,hfit⟩
  rw [← ha,← hr] at hroom
  refine Prog.loop_not_halts fun hh => ?_
  obtain ⟨o,ho⟩ := hh
  exact Prog.not_halts_bind (checkSmall_endless hin hroom) _ ⟨o,(hturn o).mp ho⟩

theorem copy_wrong (hoff : 0 < off) (hle : off ≤ content.length) (hwf : b.Wf)
    (hno : ¬ OneRead b (content.length-off) gives) :
    Prog.Ensures (readFd FileReads.read (openFile content off gives) b off)
      (fun r => ¬ Copied b content off r) fun _ => False :=
  Prog.ensures_loop (Lost b content gives off) (fun _ h => lost_turn hoff hle hno h) _
    ⟨hwf,rfl,rfl,.start rfl rfl rfl rfl⟩

theorem copy_all (hwf : b.Wf) {bound : Nat} (hbound : ∀ k, bound ≤ k → gives k ≠ none) :
    (∃ r, (readFd FileReads.read (openFile content 0 gives) b 0).Returns r ∧
        Copied b content 0 r) ↔
      content.length = 0 ∨ Growable b.alloc (b.readable+content.length) := by
  have hfeeds := file_feeds content hbound
  have hleft : FileLeft content gives (openFile content 0 gives) b content :=
    ⟨rfl,rfl,Nat.zero_le _,rfl,rfl⟩
  constructor
  · intro h
    obtain ⟨r,hret,_⟩ := h
    by_contra hno
    rw [not_or] at hno
    have hne : content ≠ [] := fun hnil => hno.1 (by rw [hnil]; rfl)
    exact feeds_endless hfeeds (s := { source := openFile content 0 gives, buffer := b }) hwf hleft
      hne hno.2 hret.halts
  · intro hroom
    obtain ⟨t,b',hret,hh,ht⟩ := feeds_returns hfeeds
      (s := { source := openFile content 0 gives, buffer := b }) hwf hleft
      (hroom.imp_left List.eq_nil_of_length_eq_zero)
    exact ⟨_,hret,ht,hh⟩

/-- The rest of a file is copied exactly, whatever the buffer's state, if and only if the copy
begins at offset 0 or takes one read, and the buffer can grow to hold the rest. -/
theorem readFd_copies_iff (hwf : b.Wf) (hle : off ≤ content.length)
    (hfinite : ∃ bound, ∀ k, bound ≤ k → gives k ≠ none) :
    (∃ r, (readFd FileReads.read (openFile content off gives) b off).Returns r ∧
        Copied b content off r) ↔
      (off = 0 ∨ OneRead b (content.length-off) gives) ∧
      (content.length-off = 0 ∨ Growable b.alloc (b.readable+(content.length-off : Nat))) := by
  by_cases hoff : off = 0
  · obtain ⟨bound,hbound⟩ := hfinite
    subst hoff
    exact (copy_all hwf hbound).trans ⟨fun h => ⟨.inl rfl,h⟩,And.right⟩
  · have hpos : 0 < off := by omega
    by_cases hone : OneRead b (content.length-off) gives
    · constructor
      · intro h
        obtain ⟨r,hret,_⟩ := h
        refine ⟨.inr hone,?_⟩
        by_contra hno
        rw [not_or] at hno
        exact copy_endless hpos hwf hone hno.1 hno.2 hret.halts
      · exact fun h => copy_returns hpos hle hwf hone h.2
    · refine iff_of_false (fun h => ?_) fun h => h.1.elim hoff hone
      obtain ⟨r,hret,hcopied⟩ := h
      exact (copy_wrong hpos hle hwf hone).result hret hcopied

theorem readFd_rereads : ¬ ∀ (content : Bytes) (off : Nat) (gives : Nat → Option Nat)
    (b : NetBuffer), b.Wf → off ≤ content.length →
    (∃ bound, ∀ k, bound ≤ k → gives k ≠ none) →
    b.readable+(content.length-off : Nat)+4096 < 2^30 →
    ∃ r, (readFd FileReads.read (openFile content off gives) b off).Returns r ∧
      Copied b content off r := by
  intro hall
  have hwf : (create 1024 fun _ => 0).Wf := (create_holds (by decide) _).wf
  have hno : ¬ OneRead (create 1024 fun _ => 0) 3 fun _ => some 1 := by
    intro h
    obtain ⟨n,hn,hleft⟩ := h
    cases hn
    omega
  obtain ⟨r,hret,hcopied⟩ := hall [1,2,3,4] 1 (fun _ => some 1) (create 1024 fun _ => 0) hwf
    (by decide) ⟨0,by simp⟩ (by decide)
  exact (copy_wrong (by decide) (by decide) hwf hno).result hret hcopied

theorem readFd_copies_iff_four :
    (∃ r, (readFd FileReads.read (openFile [1,2,3,4] 1 fun _ => some 8) (create 1024 fun _ => 0)
          (1 : Nat)).Returns r ∧ Copied (create 1024 fun _ => 0) [1,2,3,4] 1 r) ↔
      ((1:Nat) = 0 ∨ OneRead (create 1024 fun _ => 0) 3 fun _ => some 8) ∧
      ((3:Nat) = 0 ∨ Growable (create 1024 fun _ => 0).alloc
        ((create 1024 fun _ => 0).readable+(3 : Nat))) :=
  readFd_copies_iff (create_holds (by decide) _).wf (by decide) ⟨0,by simp⟩

end

end AdlServer.Net
