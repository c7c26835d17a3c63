import AdlServer.FileUtil
import AdlServer.LogFile
import AdlServer.Pieces

/-! `fileApp::append` when `fwrite_unlocked` takes less than it is offered. -/
namespace AdlServer.Log.FileApp
open Program Memory Pieces
open Net (sizeT sizeT_nat)

/-- What `append` is to have done with `input`: some first part `s` of it is behind what was in
the file, and counted; the result says whether that is all of it. -/
structure Appended (results : Nat → Nat) (f g : FileApp) (input s : Bytes) (r : Int) : Prop where
  inOrder : s<+:input
  contents : g.contents = f.contents++s
  writtenBytes : g.writtenBytes = f.writtenBytes+Int64.ofNat s.length
  counted : f.writtenBytes.toInt+s.length < 2^63 →
    g.writtenBytes.toInt = f.writtenBytes.toInt+s.length
  all : input.length < 2^31 → (r = input.length ↔ s = input)
  fails : input.length < 2^31 → s ≠ input → r = -1
  zero : input.length < 2^31 → (r = -1 ↔ ∃ k, k < g.writes-f.writes ∧ results k = 0)

def takes (fwrite : Fwrite) (f : FileApp) (k n : Nat) : Nat := fwrite (f.writes+k) n

def writeResult (fwrite : Fwrite) (f : FileApp) (len k : Nat) : Nat := piece (takes fwrite f) len k

theorem write_result {ε : Type} (fwrite : Fwrite) (f : FileApp) (p : Mem) (fp buf : Int)
    (len : UInt64) (errno : Nat → Option Cpp.Errno) :
    (xfwrite_unlocked (fun k => (fwrite (f.writes+k) len.toNat,errno k)) fp buf len :
      Prog ε _).Returns ([.fwrite_unlocked fp buf len],(f.write fwrite p len.toNat).2) :=
  leavesUnless_once (fun k => (fwrite (f.writes+k) len.toNat,errno k)) [.EINTR] Prod.fst Prod.snd _

/-- The loop of `append` before its `k`-th turn. -/
def before (fwrite : Fwrite) (f : FileApp) (logLine : Mem) (len k : Nat) : Rest where
  file := { f with
    contents := f.contents++slice logLine 0 (handed (takes fwrite f) len k)
    writtenBytes := f.writtenBytes+Int64.ofNat (handed (takes fwrite f) len k)
    writes := f.writes+k }
  p := shift logLine (handed (takes fwrite f) len k)
  len := left (takes fwrite f) len k
  total := handed (takes fwrite f) len k

variable {fwrite : Fwrite} {f : FileApp} {logLine : Mem} {len k : Nat}

theorem before_zero : before fwrite f logLine len 0 = ⟨f,logLine,len,0⟩ := by
  rw [before,handed_zero,Int.natCast_zero,shift_zero]
  simp [left]

theorem appendTurn_some (hfwrite : ∀ k n, fwrite k n ≤ n) (hlen : len < 2^64)
    (hleft : left (takes fwrite f) len k ≠ 0) (hpiece : writeResult fwrite f len k ≠ 0) :
    (appendTurn fwrite (before fwrite f logLine len k)).Returns
      (.again (before fwrite f logLine len (k+1))) := by
  have hsucc : handed (takes fwrite f) len (k+1) =
      handed (takes fwrite f) len k+writeResult fwrite f len k :=
    handed_succ (fun j n => hfwrite (f.writes+j) n) k
  have htaken : fwrite (f.writes+k) (left (takes fwrite f) len k) = writeResult fwrite f len k :=
    rfl
  have hrest : sizeT ((left (takes fwrite f) len k:Int)-writeResult fwrite f len k) =
      left (takes fwrite f) len (k+1) := by
    have hle : writeResult fwrite f len k ≤ left (takes fwrite f) len k := hfwrite _ _
    have hall : left (takes fwrite f) len k ≤ len := left_le k
    rw [left_succ,← Int.ofNat_sub hle]
    exact sizeT_nat (by omega)
  have htotal : sizeT ((handed (takes fwrite f) len k:Int)+writeResult fwrite f len k) =
      handed (takes fwrite f) len (k+1) := by
    have hall : handed (takes fwrite f) len (k+1) ≤ len := Nat.sub_le _ _
    rw [hsucc,← Int.natCast_add]
    exact sizeT_nat (by omega)
  have hbytes : slice logLine 0 (handed (takes fwrite f) len (k+1)) =
      slice logLine 0 (handed (takes fwrite f) len k)++
        slice (shift logLine (handed (takes fwrite f) len k)) 0 (writeResult fwrite f len k) := by
    rw [slice_shift,hsucc,Int.natCast_add,Int.add_zero]
    exact slice_append _ (by omega) (by omega)
  rw [appendTurn]
  simp only [before,write,htaken]
  rw [if_neg hleft,if_neg hpiece,hrest,htotal,shift_shift,hbytes,hsucc,Int64.ofNat_add]
  simp [Nat.add_assoc,Int64.add_assoc]

theorem append_turns (hfwrite : ∀ k n, fwrite k n ≤ n) (hlen : len < 2^64)
    (h : ∀ j, j < k → left (takes fwrite f) len j ≠ 0 ∧ writeResult fwrite f len j ≠ 0)
    (o : Except LogFault (FileApp×Int)) :
    (f.append fwrite logLine len).Ends o ↔
      (Prog.loop (appendTurn fwrite) (before fwrite f logLine len k)).Ends o := by
  rw [append,← before_zero]
  exact Prog.ends_loop_turns (before fwrite f logLine len)
    (fun j hj => appendTurn_some hfwrite hlen (h j hj).1 (h j hj).2) o

theorem toInt_add_ofNat (w : Int64) {n : Nat} (h : w.toInt+n < 2^63) :
    (w+Int64.ofNat n).toInt = w.toInt+n := by
  have hlow := Int64.le_toInt w
  have hsize : (Int64.size:Int) = 2^64 := rfl
  rw [Int64.toInt_add,Int64.toInt_ofNat',Int.add_bmod_bmod,Int.bmod_def,hsize]
  split_ifs <;> omega

theorem before_part (fwrite : Fwrite) (f : FileApp) (logLine : Mem) (len k : Nat) :
    ∃ s, s.length = handed (takes fwrite f) len k ∧ s<+:slice logLine 0 len ∧
      (before fwrite f logLine len k).file.contents = f.contents++s ∧
      (before fwrite f logLine len k).file.writtenBytes = f.writtenBytes+Int64.ofNat s.length := by
  have hle : handed (takes fwrite f) len k ≤ len := Nat.sub_le _ _
  have hlength : (slice logLine 0 (handed (takes fwrite f) len k)).length =
      handed (takes fwrite f) len k := by
    rw [length_slice]
    omega
  refine ⟨slice logLine 0 (handed (takes fwrite f) len k),hlength,?_,rfl,by rw [hlength]; rfl⟩
  exact ⟨_,(slice_append logLine (by omega) (by omega)).symm⟩

theorem appendTurn_done (hleft : left (takes fwrite f) len k = 0) :
    (appendTurn fwrite (before fwrite f logLine len k)).Returns
      (.leave ((before fwrite f logLine len k).file,wrapInt (handed (takes fwrite f) len k))) := by
  have hdone : (before fwrite f logLine len k).len = 0 := hleft
  rw [appendTurn,if_pos hdone]
  exact Prog.returns_self _

theorem appendTurn_none (hleft : left (takes fwrite f) len k ≠ 0)
    (hpiece : writeResult fwrite f len k = 0) :
    (appendTurn fwrite (before fwrite f logLine len k)).Returns
      (.leave ({ (before fwrite f logLine len k).file with writes := f.writes+(k+1) },-1)) := by
  have htaken : fwrite (f.writes+k) (left (takes fwrite f) len k) = 0 := hpiece
  rw [appendTurn]
  simp only [before,write,htaken]
  rw [if_neg hleft,if_pos trivial]
  simp [Nat.add_assoc]

/-- Whatever the writes take, `append` returns, what it has written is a first part of the
line and counted exactly, and its result tells whether that is the whole line. -/
theorem append_accounted (hfwrite : ∀ k n, fwrite k n ≤ n) (f : FileApp) (logLine : Mem)
    (len : UInt64) : ∃ g r s, (f.append fwrite logLine len.toNat).Returns (g,r) ∧
      Appended (writeResult fwrite f len.toNat) f g (slice logLine 0 len.toNat) s r := by
  have hlen := len.toNat_lt
  have hlength : (slice logLine 0 len.toNat).length = len.toNat := by
    rw [length_slice]
    omega
  obtain ⟨m,hall,hend⟩ := exists_end (takes fwrite f) len.toNat
  obtain ⟨s,hs,hfirst,hcontents,hwritten⟩ := before_part fwrite f logLine len.toNat m
  have htotal : handed (takes fwrite f) len.toNat m+left (takes fwrite f) len.toNat m =
      len.toNat := handed_add_left m
  by_cases hleft : left (takes fwrite f) len.toNat m = 0
  · -- every write took something
    have hwhole : s = slice logLine 0 len.toNat := hfirst.eq_of_length (by omega)
    have hr (h : (slice logLine 0 len.toNat).length < 2^31) :
        wrapInt (handed (takes fwrite f) len.toNat m) = (slice logLine 0 len.toNat).length := by
      rw [wrapInt_of_range (by omega) (by omega)]
      omega
    refine ⟨_,_,s,(append_turns hfwrite hlen hall _).mpr
      (Prog.returns_loop_leave (appendTurn_done hleft)),hfirst,hcontents,hwritten,?_,?_,?_,?_⟩
    · intro hfits
      rw [hwritten]
      exact toInt_add_ofNat _ hfits
    · exact fun h => ⟨fun _ => hwhole,fun _ => hr h⟩
    · exact fun _ hne => absurd hwhole hne
    · intro h
      rw [hr h]
      refine ⟨fun he => by omega,?_⟩
      rintro ⟨k,hk,hzero⟩
      exact absurd hzero (hall k (by simpa [before] using hk)).2
  · -- the last write took nothing
    have hpiece : writeResult fwrite f len.toNat m = 0 := hend.resolve_left hleft
    have hpart : s ≠ slice logLine 0 len.toNat := by
      intro he
      rw [he] at hs
      omega
    refine ⟨_,_,s,(append_turns hfwrite hlen hall _).mpr
      (Prog.returns_loop_leave (appendTurn_none hleft hpiece)),hfirst,hcontents,hwritten,?_,?_,?_,
      ?_⟩
    · intro hfits
      exact (congrArg Int64.toInt hwritten).trans (toInt_add_ofNat _ hfits)
    · exact fun _ => ⟨fun he => by omega,fun he => absurd he hpart⟩
    · exact fun _ _ => rfl
    · exact fun _ => ⟨fun _ => ⟨m,by dsimp only; omega,hpiece⟩,fun _ => rfl⟩

def threeThenNone : Fwrite := fun k n => if k = 0 then min n 3 else 0

theorem append_accounted_threeThenNone : ∃ g r s,
    (append threeThenNone { opened := 0 } (fun _ => 65) (5:UInt64).toNat).Returns (g,r) ∧
      Appended (writeResult threeThenNone { opened := 0 } (5:UInt64).toNat) { opened := 0 } g
        (slice (fun _ => 65) 0 (5:UInt64).toNat) s r := by
  refine append_accounted (fun k n => ?_) { opened := 0 } (fun _ => 65) 5
  rw [threeThenNone]
  split_ifs <;> omega

end AdlServer.Log.FileApp
