import AdlServer.Calendar
import AdlServer.LastKey
import AdlServer.LogStream

/-! The time in front of a log record: `timeStamp::toFormattedString`, and
`Logger::formatTime`, which keeps the text of the last second it has seen. -/
namespace AdlServer.Log
open Memory
open Http (bytes intString)

structure TimeStamp where
  ms : Int64
  deriving DecidableEq

def s2ms : Int := 1000*1000

structure Tm where
  tm_year : Int
  tm_mon : Int
  tm_mday : Int
  tm_hour : Int
  tm_min : Int
  tm_sec : Int

def gmtime (t : Int) : Tm :=
  let date := Calendar.civil (t/86400)
  let s := t%86400
  ⟨date.1-1900,date.2.1-1,date.2.2,s/3600,s%3600/60,s%60⟩

def spacePadded (width : Nat) (x : Int) : Bytes :=
  List.replicate (width-(intString x).length) 32++intString x

/-- `%02d` and its like: the sign stands before the zeros and counts as a place. -/
def zeroPadded (width : Nat) (x : Int) : Bytes :=
  let digits := Cpp.toString x.natAbs
  if x < 0 then 45::(List.replicate (width-1-digits.length) 48++digits)
  else List.replicate (width-digits.length) 48++digits

def Tm.text (tm : Tm) : Bytes :=
  spacePadded 4 (tm.tm_year+1900)++zeroPadded 2 (tm.tm_mon+1)++zeroPadded 2 tm.tm_mday++
    bytes " "++zeroPadded 2 tm.tm_hour++bytes ":"++zeroPadded 2 tm.tm_min++bytes ":"++
    zeroPadded 2 tm.tm_sec

namespace TimeStamp

def seconds (ts : TimeStamp) : Int := ts.ms.toInt.tdiv s2ms

def toFormattedString (ts : TimeStamp) (showMicroseconds : Bool) : Bytes :=
  let tm := gmtime ts.seconds
  if showMicroseconds then
    let microseconds := ts.ms.toInt.tmod s2ms
    (tm.text++bytes "."++zeroPadded 6 microseconds).take 63
  else tm.text.take 63

end TimeStamp

/-- `thread_local time_t t_lastSecond; thread_local std::string t_time;` -/
structure TimeCache where
  lastSecond : Int := 0
  time : Bytes := []

def blank : CString := ⟨LogStream.literal (bytes " "),1,rfl⟩

/-- `Logger::formatTime`. -/
def formatTime (c : TimeCache) (ls : LogStream) (ts : TimeStamp) :
    Checked (TimeCache×LogStream) := do
  let s := ts.seconds
  let c := if s ≠ c.lastSecond then ⟨s,ts.toFormattedString true⟩ else c
  let ls ← ls.insert (.string c.time)
  let ls ← ls.insert (.chars (some blank))
  pure (c,ls)

/-- What the records of one thread begin with. Each is built in a stream of its own, whose
buffer holds what happened to lie there. -/
def formatTimes (c : TimeCache) : List (Mem×TimeStamp) → Checked (List Bytes)
  | [] => pure []
  | (buf,ts)::records => do
    let (c,ls) ← formatTime c ⟨0,buf⟩ ts
    let texts ← formatTimes c records
    pure (ls.contents::texts)

/-! The formatter. -/

theorem toString_length {n k : Nat} (hk : 0 < k) (h : n < 10^k) :
    (Cpp.toString n).length ≤ k := by
  rw [Cpp.toString]
  by_cases h0 : n = 0
  · rwa [if_pos h0]
  · rw [if_neg h0,List.length_reverse,List.length_map]
    exact (Nat.digits_length_le_iff (by decide) n).mpr h

theorem spacePadded_length {x : Int} {k w : Nat} (hk : 0 < k) (h : x.natAbs < 10^k) :
    (spacePadded w x).length ≤ max w (k+1) := by
  have hlen : (intString x).length ≤ k+1 := by
    rw [intString]
    by_cases hneg : x < 0
    · have hn := toString_length (n := (-x).toNat) hk (by omega)
      rw [if_pos hneg,List.length_cons]
      omega
    · have hn := toString_length (n := x.toNat) hk (by omega)
      rw [if_neg hneg]
      omega
  rw [spacePadded,List.length_append,List.length_replicate]
  omega

theorem zeroPadded_length {x : Int} {k w : Nat} (hk : 0 < k) (h : x.natAbs < 10^k) :
    (zeroPadded w x).length ≤ max w (k+1) := by
  have hn := toString_length hk h
  rw [zeroPadded]
  by_cases hneg : x < 0
  · rw [if_pos hneg,List.length_cons,List.length_append,List.length_replicate]
    omega
  · rw [if_neg hneg,List.length_append,List.length_replicate]
    omega

theorem digitsValue_zeros (n : Nat) (s : Bytes) :
    Cpp.digitsValue (List.replicate n 48++s) = Cpp.digitsValue s := by
  induction n with
  | zero => rfl
  | succ n ih =>
    rw [← ih]
    rfl

theorem zeros_digits (n m : Nat) : ∀ c∈List.replicate n 48++Cpp.toString m, c ≠ 45 := by
  intro c hc
  cases List.mem_append.mp hc with
  | inl hc =>
    rw [List.eq_of_mem_replicate hc]
    decide
  | inr hc =>
    rintro rfl
    exact absurd (Cpp.toString_digits m 45 hc) (by decide)

theorem zeroPadded_injective (w : Nat) {x y : Int} (h : zeroPadded w x = zeroPadded w y) :
    x = y := by
  rw [zeroPadded,zeroPadded] at h
  by_cases hx : x < 0
  · by_cases hy : y < 0
    · rw [if_pos hx,if_pos hy] at h
      have hv := congrArg Cpp.digitsValue (List.cons.inj h).2
      rw [digitsValue_zeros,digitsValue_zeros,Cpp.digitsValue_toString,
        Cpp.digitsValue_toString] at hv
      omega
    · rw [if_pos hx,if_neg hy] at h
      exact absurd rfl (zeros_digits _ _ 45 (h ▸ List.mem_cons_self))
  · by_cases hy : y < 0
    · rw [if_neg hx,if_pos hy] at h
      exact absurd rfl (zeros_digits _ _ 45 (h ▸ List.mem_cons_self))
    · rw [if_neg hx,if_neg hy] at h
      have hv := congrArg Cpp.digitsValue h
      rw [digitsValue_zeros,digitsValue_zeros,Cpp.digitsValue_toString,
        Cpp.digitsValue_toString] at hv
      omega

namespace TimeStamp

theorem seconds_bounds (ts : TimeStamp) : -10^13 < ts.seconds ∧ ts.seconds < 10^13 := by
  have hlo := ts.ms.le_toInt
  have hhi := ts.ms.toInt_lt
  have habs : ts.seconds.natAbs = ts.ms.toInt.natAbs/1000000 := Int.natAbs_tdiv _ _
  omega

theorem microseconds_bound (ts : TimeStamp) : (ts.ms.toInt.tmod s2ms).natAbs < 10^6 := by
  have habs : (ts.ms.toInt.tmod s2ms).natAbs = ts.ms.toInt.natAbs%1000000 := Int.natAbs_tmod _ _
  omega

end TimeStamp

theorem gmtime_text_length {t : Int} (h : -10^13 < t ∧ t < 10^13) :
    (gmtime t).text.length ≤ 26 := by
  obtain ⟨⟨hm,hm'⟩,hd,hd'⟩ := Calendar.civil_bounds (t/86400)
  obtain ⟨hy,hy'⟩ := Calendar.civil_year_bounds (n := t/86400) (k := 800) (by omega) (by omega)
  have hyear := spacePadded_length (x := (gmtime t).tm_year+1900) (k := 6) (w := 4) (by decide)
    (by simp only [gmtime]; omega)
  have two {x : Int} (hx : x.natAbs < 10^2) : (zeroPadded 2 x).length ≤ 3 :=
    zeroPadded_length (by decide) hx
  have hmon := two (x := (gmtime t).tm_mon+1) (by simp only [gmtime]; omega)
  have hday := two (x := (gmtime t).tm_mday) (by simp only [gmtime]; omega)
  have hhour := two (x := (gmtime t).tm_hour) (by simp only [gmtime]; omega)
  have hmin := two (x := (gmtime t).tm_min) (by simp only [gmtime]; omega)
  have hsec := two (x := (gmtime t).tm_sec) (by simp only [gmtime]; omega)
  have hblank : (bytes " ").length = 1 := by decide
  have hcolon : (bytes ":").length = 1 := by decide
  simp only [Tm.text,List.length_append]
  omega

namespace TimeStamp

theorem toFormattedString_eq (ts : TimeStamp) : ts.toFormattedString true =
    (gmtime ts.seconds).text++bytes "."++zeroPadded 6 (ts.ms.toInt.tmod s2ms) := by
  have htext := gmtime_text_length ts.seconds_bounds
  have hpoint : (bytes ".").length = 1 := by decide
  have hmicro := zeroPadded_length (k := 6) (w := 6) (by decide) ts.microseconds_bound
  rw [toFormattedString,if_pos rfl]
  refine List.take_of_length_le ?_
  rw [List.length_append,List.length_append]
  omega

theorem toFormattedString_ne_nil (ts : TimeStamp) : ts.toFormattedString true ≠ [] := by
  have hpoint : bytes "." ≠ [] := by decide
  rw [toFormattedString_eq]
  simp [hpoint]

theorem toFormattedString_length (ts : TimeStamp) : (ts.toFormattedString true).length ≤ 63 := by
  rw [toFormattedString,if_pos rfl]
  exact List.length_take_le _ _

theorem toFormattedString_iff {x y : TimeStamp} (h : x.seconds = y.seconds) :
    x.toFormattedString true = y.toFormattedString true ↔ x = y := by
  constructor
  · intro he
    rw [toFormattedString_eq,toFormattedString_eq,h,List.append_cancel_left_eq] at he
    have hmicro := zeroPadded_injective 6 he
    have hx := Int.mul_tdiv_add_tmod x.ms.toInt s2ms
    have hy := Int.mul_tdiv_add_tmod y.ms.toInt s2ms
    rw [← seconds,h,hmicro] at hx
    have hms : x.ms.toInt = y.ms.toInt := hx.symm.trans hy
    cases x with
    | mk a =>
      cases y with
      | mk b => exact congrArg mk (Int64.toInt_inj.mp hms)
  · intro he
    rw [he]

end TimeStamp

/-! The cached text. -/

namespace TimeCache

/-- The cache after the record's second has been looked at. -/
def refreshed (c : TimeCache) (ts : TimeStamp) : TimeCache :=
  if ts.seconds ≠ c.lastSecond then ⟨ts.seconds,ts.toFormattedString true⟩ else c

def entry (c : TimeCache) : LastKey.Cache Int Bytes := ⟨c.lastSecond,c.time⟩

theorem refreshed_entry (c : TimeCache) (ts : TimeStamp) :
    (c.refreshed ts).entry =
      LastKey.ask TimeStamp.seconds (fun ts => ts.toFormattedString true) c.entry ts := by
  rw [refreshed,LastKey.ask]
  by_cases hs : ts.seconds = c.lastSecond
  · have hkey : ts.seconds = c.entry.key := hs
    rw [if_neg (not_not.mpr hs),if_neg (not_not.mpr hkey)]
  · have hkey : ts.seconds ≠ c.entry.key := hs
    rw [if_pos hs,if_pos hkey,entry]

theorem refreshed_length {c : TimeCache} (hc : c.time.length ≤ 63) (ts : TimeStamp) :
    (c.refreshed ts).time.length ≤ 63 := by
  rw [refreshed]
  by_cases hs : ts.seconds = c.lastSecond
  · rwa [if_neg (not_not.mpr hs)]
  · rw [if_pos hs]
    dsimp only
    exact ts.toFormattedString_length

end TimeCache

open CharBuffer

theorem blank_text : (Item.chars (some blank)).rendering = bytes " " := by
  have hlen : strlen blank = 1 := by
    refine (Nat.find_eq_iff _).mpr ⟨rfl,fun n hn => ?_⟩
    rw [Nat.lt_one_iff.mp hn]
    decide
  rw [Item.rendering,Item.charsText,hlen]
  exact slice_ofBytes (bytes " ") _

theorem formatTime_ok {c : TimeCache} (hc : c.time.length ≤ 63) (buf : Mem) (ts : TimeStamp) :
    ∃ ls, formatTime c ⟨0,buf⟩ ts = .ok (c.refreshed ts,ls) ∧
      ls.contents = (c.refreshed ts).time++bytes " " := by
  have hlen := TimeCache.refreshed_length hc ts
  have hsize : kSmallBuffer = 4000 := rfl
  have hblank : (bytes " ").length = 1 := by decide
  obtain ⟨d,hd,hins⟩ := LogStream.insert_ok (b := ⟨0,buf⟩) (Nat.zero_lt_succ 3999)
    (.string (c.refreshed ts).time)
  have hall := hins.all ⟨by simp only [Item.need]; omega,by
    simp only [Item.need,Item.rendering]
    omega⟩
  have hcontents : d.contents = (c.refreshed ts).time := hall.contents
  have hused : d.len = (c.refreshed ts).time.length := by
    rw [← d.contents_length,hcontents]
  obtain ⟨e,he,hins'⟩ := LogStream.insert_ok hins.len (.chars (some blank))
  have hall' := hins'.all ⟨by simp only [Item.need]; omega,by
    simp only [Item.need,blank_text]
    omega⟩
  refine ⟨e,?_,?_⟩
  · rw [formatTime]
    change (LogStream.insert _ (.string (c.refreshed ts).time) >>= fun ls => _) = _
    rw [hd]
    change (LogStream.insert d (.chars (some blank)) >>= fun ls => _) = _
    rw [he]
    rfl
  · rw [hall'.contents,hcontents,blank_text]

theorem formatTimes_eq {c : TimeCache} (hc : c.time.length ≤ 63) (records : List (Mem×TimeStamp)) :
    formatTimes c records =
      .ok ((LastKey.answers TimeStamp.seconds (fun ts => ts.toFormattedString true) c.entry
        (records.map Prod.snd)).map (·++bytes " ")) := by
  induction records generalizing c with
  | nil => rfl
  | cons r records ih =>
    obtain ⟨buf,ts⟩ := r
    obtain ⟨ls,hls,hcontents⟩ := formatTime_ok hc buf ts
    rw [formatTimes,hls]
    change (formatTimes (c.refreshed ts) records >>= fun texts => _) = _
    rw [ih (TimeCache.refreshed_length hc ts),hcontents,TimeCache.refreshed_entry]
    rw [List.map_cons,LastKey.answers,← TimeCache.refreshed_entry]
    rfl

/-- Every record of a thread begins with its own time exactly if the first does not fall into
second 0, for which the empty cache passes, and two successive ones of the same second have
the same microseconds. -/
theorem formatTimes_right_iff (records : List (Mem×TimeStamp)) :
    formatTimes {} records =
        .ok ((records.map Prod.snd).map fun ts => ts.toFormattedString true++bytes " ") ↔
      (∀ ts∈(records.map Prod.snd).head?, ts.seconds ≠ 0) ∧
      (records.map Prod.snd).IsChain fun x y => x.seconds = y.seconds → x = y := by
  have hinj : Function.Injective (List.map (·++bytes " ")) :=
    List.map_injective_iff.mpr fun _ _ h => List.append_cancel_right h
  have htexts (tss : List TimeStamp) :
      tss.map (fun ts => ts.toFormattedString true++bytes " ") =
        (tss.map fun ts => ts.toFormattedString true).map (·++bytes " ") := by
    rw [List.map_map]
    rfl
  have hfirst (ts : TimeStamp) : (ts.seconds = 0 → [] = ts.toFormattedString true) ↔
      ts.seconds ≠ 0 :=
    ⟨fun h h0 => ts.toFormattedString_ne_nil (h h0).symm,fun h h0 => absurd h0 h⟩
  have hnext (x y : TimeStamp) :
      (x.seconds = y.seconds → x.toFormattedString true = y.toFormattedString true) ↔
        (x.seconds = y.seconds → x = y) :=
    forall_congr' TimeStamp.toFormattedString_iff
  rw [formatTimes_eq (Nat.zero_le _),Except.ok.injEq,htexts,hinj.eq_iff,
    LastKey.answers_eq_map_iff]
  simp only [TimeCache.entry,hfirst,hnext]

theorem formatTimes_stale : ¬ ∀ records : List (Mem×TimeStamp),
    formatTimes {} records =
      .ok ((records.map Prod.snd).map fun ts => ts.toFormattedString true++bytes " ") := by
  intro hall
  have h := hall [(fun _ => 0,⟨1000000⟩),(fun _ => 0,⟨1000001⟩)]
  rw [formatTimes_eq (Nat.zero_le _)] at h
  exact absurd (Except.ok.inj h) (by decide)

end AdlServer.Log
