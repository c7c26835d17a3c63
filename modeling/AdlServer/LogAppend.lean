import AdlServer.LogShutdown

/-! `asyncLogging::append` at the bounds: the guard on the length, the space test for the
present buffer and the one for the buffer that takes its place. -/
namespace AdlServer.Log
open Memory Runs

namespace AsyncLogging
variable {s t : AsyncLogging} {w str : Bytes}

/-- What the back end has still to collect, in its order. -/
def pending (s : AsyncLogging) : Bytes := vecBytes s.transBufVec++ptrBytes s.cur

theorem append_returns (hs : Inv { s with appended := w }) (hr : s.running = true)
    (hlen : str.length < kLargeBuffer) : ∃ t, s.append str = .ok t := by
  obtain ⟨b,hb⟩ := Option.isSome_iff_exists.mp hs.cur
  dsimp only at hb
  by_cases hfit : str.length+1 ≤ b.avail
  · obtain ⟨d,hd,_⟩ := b.append_ok (Nat.le_of_succ_le hfit)
    exact ⟨_,append_present hr hlen hb hfit hd⟩
  · by_cases hroom : str.length+1 ≤ (s.prv.getD newBuffer).avail
    · obtain ⟨d,hd,_⟩ := (s.prv.getD newBuffer).append_ok (Nat.le_of_succ_le hroom)
      exact ⟨_,append_switch hr hlen hb hfit (by rw [if_pos hroom,hd])⟩
    · exact ⟨_,append_switch hr hlen hb hfit (if_neg hroom)⟩

theorem append_pending (hs : Inv { s with appended := w }) (h : s.append str = .ok t) :
    t.pending = s.pending++fitting str := by
  obtain ⟨_,b,d,hb,hcases⟩ := append_cases hs h
  cases hcases with
  | inl hin =>
    obtain ⟨hd,ht⟩ := hin
    rw [ht]
    simp [pending,ptrBytes,hb,hd]
  | inr hin =>
    obtain ⟨hd,ht⟩ := hin
    rw [ht]
    simp [pending,ptrBytes,vecBytes,hb,hd]

theorem fitting_eq_self_iff (str : Bytes) : fitting str = str ↔ str.length+1 < kLargeBuffer := by
  have hpos : 1 < kLargeBuffer := by decide
  rw [fitting]
  by_cases hfit : str.length+1 < kLargeBuffer
  · simp [hfit]
  · rw [if_neg hfit]
    refine iff_of_false (fun he => hfit ?_) hfit
    rwa [← he]

end AsyncLogging

namespace Shutdown
open AsyncLogging
variable {s : Shutdown} {as : List (Shutdown×Action)} {str : Bytes}

theorem append_reached (h : Run Step {} as s) (hr : s.log.running = true)
    (hlen : str.length < kLargeBuffer) :
    ∃ t, s.log.append str = .ok t ∧ t.pending = s.log.pending++fitting str := by
  obtain ⟨hs,_⟩ := run_inv h create_inv
  obtain ⟨t,ht⟩ := append_returns hs.log hr hlen
  exact ⟨t,ht,append_pending hs.log ht⟩

/-- A message that passes the guards is stored behind what is pending exactly if an empty
buffer has room for one byte more. -/
theorem append_stores_iff (h : Run Step {} as s) (hr : s.log.running = true)
    (hlen : str.length < kLargeBuffer) :
    (∃ t, s.log.append str = .ok t ∧ t.pending = s.log.pending++str) ↔
      str.length+1 < kLargeBuffer := by
  obtain ⟨t,ht,hpending⟩ := append_reached h hr hlen
  rw [← fitting_eq_self_iff]
  constructor
  · intro hstored
    obtain ⟨u,hu,he⟩ := hstored
    rw [← Except.ok.inj (ht.symm.trans hu),hpending] at he
    exact List.append_cancel_left he
  · intro he
    exact ⟨t,ht,by rw [hpending,he]⟩

theorem append_stores_iff_short :
    (∃ t, ({} : Shutdown).log.append [65] = .ok t ∧
      t.pending = ({} : Shutdown).log.pending++[65]) ↔ [(65:UInt8)].length+1 < kLargeBuffer :=
  append_stores_iff (.nil _) rfl (by decide)

theorem longest_dropped : ¬ ∀ (as : List (Shutdown×Action)) (s : Shutdown) (str : Bytes),
    Run Step {} as s → s.log.running = true → str.length < kLargeBuffer →
    ∃ t, s.log.append str = .ok t ∧ t.pending = s.log.pending++str := by
  intro hall
  have hlen : (List.replicate (kLargeBuffer-1) (65:UInt8)).length = kLargeBuffer-1 :=
    List.length_replicate
  have hlt : (List.replicate (kLargeBuffer-1) (65:UInt8)).length < kLargeBuffer := by
    rw [hlen]
    decide
  obtain ⟨t,ht,he⟩ := hall [] {} _ (.nil _) rfl hlt
  obtain ⟨u,hu,hpending⟩ := append_reached (.nil _) rfl hlt
  rw [← Except.ok.inj (ht.symm.trans hu),he] at hpending
  have hfits := (fitting_eq_self_iff _).mp (List.append_cancel_left hpending).symm
  rw [hlen] at hfits
  exact absurd hfits (by decide)

end Shutdown
end AdlServer.Log
