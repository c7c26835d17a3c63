import AdlServer.FixedWidth
import AdlServer.LogFile
import AdlServer.LogTime

/-! The texts of times sort as the times do: those in front of log records, and those in
the names of log files. -/
namespace AdlServer.Log
open Memory FixedWidth Runs
open Http (bytes)

def farSecond : Int := 253402300800

def Tm.fields (tm : Tm) : List Nat :=
  [(tm.tm_year+1900).toNat,(tm.tm_mon+1).toNat,tm.tm_mday.toNat,tm.tm_hour.toNat,
    tm.tm_min.toNat,tm.tm_sec.toNat]

theorem digitByte_rising : Rising 10 Cpp.digitByte := by
  intro d e hlt he
  rw [UInt8.lt_iff_toNat_lt,Cpp.digitByte,Cpp.digitByte,UInt8.toNat_ofNat',UInt8.toNat_ofNat']
  omega

/-! `%02d` and its like are places of fixed width. -/

theorem toString_small {n : Nat} (h : n < 10) : Cpp.toString n = [Cpp.digitByte n] := by
  by_cases h0 : n = 0
  · subst h0
    rfl
  · rw [Cpp.toString,if_neg h0,Nat.digits_of_lt 10 n h0 h]
    rfl

theorem toString_last {n : Nat} (h : 10 ≤ n) :
    Cpp.toString n = Cpp.toString (n/10)++[Cpp.digitByte (n%10)] := by
  have hn : n ≠ 0 := by omega
  have hq : n/10 ≠ 0 := by omega
  rw [Cpp.toString,if_neg hn,Cpp.toString,if_neg hq,
    Nat.digits_def' (by decide) (Nat.pos_of_ne_zero hn),List.map_cons,List.reverse_cons]

theorem zeroPadded_nat (w n : Nat) : zeroPadded w n =
    List.replicate (w-(Cpp.toString n).length) 48++Cpp.toString n := by
  rw [zeroPadded,if_neg (by omega),Int.natAbs_natCast]

theorem zeroPadded_eq {w n : Nat} (h : n < 10^(w+1)) :
    zeroPadded (w+1) n = padded 10 Cpp.digitByte (w+1) n := by
  induction w generalizing n with
  | zero =>
    rw [zeroPadded_nat,toString_small (by omega),padded,Nat.mod_eq_of_lt (by omega)]
    rfl
  | succ w ih =>
    have hq : n/10 < 10^(w+1) := Nat.div_lt_of_lt_mul (by rwa [Nat.pow_succ,Nat.mul_comm] at h)
    rw [padded,← ih hq,zeroPadded_nat,zeroPadded_nat]
    by_cases hn : n < 10
    · have h0 : n/10 = 0 := by omega
      rw [toString_small hn,h0,toString_small (by decide),Nat.mod_eq_of_lt hn,
        List.length_singleton,List.length_singleton]
      change List.replicate (w+1) 48++_ = (List.replicate w 48++[48])++_
      rw [List.replicate_succ']
    · rw [toString_last (Nat.not_lt.mp hn),List.length_append,List.length_singleton,
        Nat.add_sub_add_right,List.append_assoc]

theorem zeroPadded_field {w : Nat} {x : Int} (h0 : 0 ≤ x) (h : x < 10^(w+1)) :
    zeroPadded (w+1) x = padded 10 Cpp.digitByte (w+1) x.toNat := by
  obtain ⟨n,rfl⟩ := Int.eq_ofNat_of_zero_le h0
  exact zeroPadded_eq (by exact_mod_cast h)

/-! The numbers of a date are in order. -/

theorem civil_year_range {n : Int} (h0 : 0 ≤ n) (h : n ≤ 2932896) :
    1970 ≤ (Calendar.civil n).1 ∧ (Calendar.civil n).1 ≤ 9999 := by
  have hfirst : (Calendar.civil 0).1 = 1970 := by decide
  have hlast : (Calendar.civil 2932896).1 = 9999 := by decide
  constructor
  · cases Int.lt_or_eq_of_le h0 with
    | inl hlt =>
      have hmono := Calendar.civil_lt hlt
      omega
    | inr heq =>
      rw [← heq,hfirst]
  · cases Int.lt_or_eq_of_le h with
    | inl hlt =>
      have hmono := Calendar.civil_lt hlt
      omega
    | inr heq =>
      rw [heq,hlast]

structure Plain (tm : Tm) : Prop where
  year : 1000 ≤ tm.tm_year+1900 ∧ tm.tm_year+1900 < 10000
  mon : 0 ≤ tm.tm_mon+1 ∧ tm.tm_mon+1 < 100
  mday : 0 ≤ tm.tm_mday ∧ tm.tm_mday < 100
  hour : 0 ≤ tm.tm_hour ∧ tm.tm_hour < 100
  min : 0 ≤ tm.tm_min ∧ tm.tm_min < 100
  sec : 0 ≤ tm.tm_sec ∧ tm.tm_sec < 100

theorem gmtime_plain {t : Int} (h0 : 0 ≤ t) (h : t < farSecond) : Plain (gmtime t) := by
  rw [farSecond] at h
  obtain ⟨hy,hy'⟩ := civil_year_range (n := t/86400) (by omega) (by omega)
  obtain ⟨⟨hm,hm'⟩,hd,hd'⟩ := Calendar.civil_bounds (t/86400)
  simp only [gmtime]
  constructor <;> dsimp only <;> omega

theorem fields_lt {x y : Int} (hx : 0 ≤ x) (h : x < y) (hy : y < farSecond) :
    (gmtime x).fields < (gmtime y).fields := by
  have hpx := gmtime_plain hx (Int.lt_trans h hy)
  have hdate : x/86400 = y/86400 ∨ x/86400 < y/86400 := by omega
  simp only [Tm.fields,List.cons_lt_cons_iff]
  cases hdate with
  | inl heq =>
    have hday : x%86400 < y%86400 := by omega
    simp only [gmtime,heq]
    refine .inr ⟨trivial,.inr ⟨trivial,.inr ⟨trivial,?_⟩⟩⟩
    by_cases hhour : x%86400/3600 = y%86400/3600
    · refine .inr ⟨by rw [hhour],?_⟩
      by_cases hmin : x%86400%3600/60 = y%86400%3600/60
      · exact .inr ⟨by rw [hmin],.inl (by omega)⟩
      · exact .inl (by omega)
    · exact .inl (by omega)
  | inr hlt =>
    have hyear := hpx.year
    have hmon := hpx.mon
    have hmday := hpx.mday
    simp only [gmtime] at hyear hmon hmday ⊢
    cases Calendar.civil_lt hlt with
    | inl hy => exact .inl (by omega)
    | inr hrest =>
      obtain ⟨he,hrest⟩ := hrest
      refine .inr ⟨by rw [he],?_⟩
      cases hrest with
      | inl hm => exact .inl (by omega)
      | inr hrest => exact .inr ⟨by rw [hrest.1],.inl (by omega)⟩

theorem fields_lt_iff {x y : Int} (hx : 0 ≤ x ∧ x < farSecond) (hy : 0 ≤ y ∧ y < farSecond) :
    (gmtime x).fields < (gmtime y).fields ↔ x < y := by
  refine ⟨fun h => ?_,fun h => fields_lt hx.1 h hy.2⟩
  by_contra hnot
  cases Int.lt_or_eq_of_le (Int.not_lt.mp hnot) with
  | inl hlt => exact List.lt_asymm h (fields_lt hy.1 hlt hx.2)
  | inr heq =>
    rw [heq] at h
    exact List.lt_asymm h h

/-! Dates as lines of places. -/

def dated (s₁ s₂ s₃ s₄ s₅ s₆ : Bytes) : List (Nat×Bytes) :=
  [(4,s₁),(2,s₂),(2,s₃),(2,s₄),(2,s₅),(2,s₆)]

variable {s₁ s₂ s₃ s₄ s₅ s₆ : Bytes}

theorem fields_fit {tm : Tm} (h : Plain tm) : Fits 10 (dated s₁ s₂ s₃ s₄ s₅ s₆) tm.fields := by
  have hyear := h.year
  have hmon := h.mon
  have hmday := h.mday
  have hhour := h.hour
  have hmin := h.min
  have hsec := h.sec
  refine .cons ?_ (.cons ?_ (.cons ?_ (.cons ?_ (.cons ?_ (.cons ?_ .nil)))))
  all_goals dsimp only; omega

theorem line_fields {tm : Tm} (h : Plain tm) :
    line 10 Cpp.digitByte (dated s₁ s₂ s₃ s₄ s₅ s₆) tm.fields =
      zeroPadded 4 (tm.tm_year+1900)++s₁++zeroPadded 2 (tm.tm_mon+1)++s₂++zeroPadded 2 tm.tm_mday++
        s₃++zeroPadded 2 tm.tm_hour++s₄++zeroPadded 2 tm.tm_min++s₅++zeroPadded 2 tm.tm_sec++s₆ := by
  have hyear := zeroPadded_field (w := 3) (x := tm.tm_year+1900) (by have := h.year; omega)
    (by have := h.year; omega)
  have two {x : Int} (hx : 0 ≤ x ∧ x < 100) :
      zeroPadded 2 x = padded 10 Cpp.digitByte 2 x.toNat := zeroPadded_field hx.1 hx.2
  rw [hyear,two h.mon,two h.mday,two h.hour,two h.min,two h.sec]
  simp [line,dated,Tm.fields]

theorem fields_length (tm : Tm) : tm.fields.length = 6 := rfl

theorem spacePadded_year {x : Int} (h : 1000 ≤ x ∧ x < 10000) : spacePadded 4 x = zeroPadded 4 x := by
  obtain ⟨n,rfl⟩ := Int.eq_ofNat_of_zero_le (by omega : 0 ≤ x)
  have hlen : (Cpp.toString n).length = 4 := by
    rw [toString_last (by omega),toString_last (by omega),toString_last (by omega),
      toString_small (by omega)]
    rfl
  rw [spacePadded,zeroPadded_nat,Http.intString,if_neg (by omega),Int.toNat_natCast,hlen]
  rfl

namespace TimeStamp

structure Datable (ts : TimeStamp) : Prop where
  valid : 0 ≤ ts.ms.toInt
  early : ts.ms.toInt < farSecond*s2ms

variable {x y : TimeStamp}

theorem Datable.seconds (h : x.Datable) : 0 ≤ x.seconds ∧ x.seconds < farSecond := by
  have h0 := h.valid
  have h1 := h.early
  rw [TimeStamp.seconds,Int.tdiv_eq_ediv_of_nonneg h0]
  rw [farSecond,s2ms] at *
  omega

theorem Datable.micros (h : x.Datable) : (0 ≤ x.ms.toInt.tmod s2ms ∧ x.ms.toInt.tmod s2ms < 1000000) ∧
    x.ms.toInt = x.seconds*s2ms+x.ms.toInt.tmod s2ms := by
  have h0 := h.valid
  rw [TimeStamp.seconds,Int.tdiv_eq_ediv_of_nonneg h0,Int.tmod_eq_emod_of_nonneg h0,s2ms]
  omega

theorem Datable.seconds_text (h : x.Datable) : x.toFormattedString false =
    line 10 Cpp.digitByte (dated [] [] (bytes " ") (bytes ":") (bytes ":") []) (gmtime x.seconds).fields := by
  have hplain := gmtime_plain h.seconds.1 h.seconds.2
  have hlen := gmtime_text_length x.seconds_bounds
  rw [toFormattedString,if_neg Bool.false_ne_true,List.take_of_length_le (by omega),
    line_fields hplain,Tm.text,spacePadded_year hplain.year]
  simp

theorem Datable.text (h : x.Datable) : x.toFormattedString true =
    line 10 Cpp.digitByte (dated [] [] (bytes " ") (bytes ":") (bytes ":") (bytes ".")++[(6,[])])
      ((gmtime x.seconds).fields++[(x.ms.toInt.tmod s2ms).toNat]) := by
  have hplain := gmtime_plain h.seconds.1 h.seconds.2
  have hmicros := zeroPadded_field (w := 5) h.micros.1.1 h.micros.1.2
  rw [line_append (fields_fit hplain),line_fields hplain,toFormattedString_eq,Tm.text,
    spacePadded_year hplain.year,hmicros]
  simp [line]

instance : LT TimeStamp := ⟨fun lhs rhs => lhs.ms < rhs.ms⟩

theorem lt_iff : x < y ↔ x.ms.toInt < y.ms.toInt := Int64.lt_iff_toInt_lt

theorem Datable.fits (h : x.Datable) :
    Fits 10 (dated s₁ s₂ s₃ s₄ s₅ s₆++[(6,[])])
      ((gmtime x.seconds).fields++[(x.ms.toInt.tmod s2ms).toNat]) := by
  obtain ⟨h0,hlt⟩ := h.micros.1
  refine (fields_fit (gmtime_plain h.seconds.1 h.seconds.2)).append (.cons ?_ .nil)
  rw [Int.toNat_lt h0]
  exact_mod_cast hlt

theorem Datable.numbers_lt (hx : x.Datable) (hy : y.Datable) (h : x < y) :
    (gmtime x.seconds).fields++[(x.ms.toInt.tmod s2ms).toNat] <
      (gmtime y.seconds).fields++[(y.ms.toInt.tmod s2ms).toNat] := by
  obtain ⟨hmx,hx'⟩ := hx.micros
  obtain ⟨hmy,hy'⟩ := hy.micros
  have hms := lt_iff.mp h
  generalize x.ms.toInt.tmod s2ms = u at *
  generalize y.ms.toInt.tmod s2ms = v at *
  rw [hx',hy',s2ms] at hms
  by_cases hs : x.seconds = y.seconds
  · rw [hs]
    exact List.append_left_lt (List.cons_lt_cons_iff.mpr (.inl (by omega)))
  · have hlt : x.seconds < y.seconds := by omega
    refine append_lt (fields_lt hx.seconds.1 hlt hy.seconds.2) ?_ _ _
    rw [fields_length,fields_length]

/-- Between 1970 and 9999 the text of a time sorts as the time, to the microsecond or to
the second. -/
theorem formatted_in_order (hx : x.Datable) (hy : y.Datable) :
    (x.toFormattedString true < y.toFormattedString true ↔ x < y) ∧
    (x.toFormattedString false < y.toFormattedString false ↔ x.seconds < y.seconds) := by
  constructor
  · rw [hx.text,hy.text,line_lt_iff digitByte_rising hx.fits hy.fits]
    refine ⟨fun h => ?_,hx.numbers_lt hy⟩
    by_contra hnot
    rw [lt_iff] at hnot
    cases Int.lt_or_eq_of_le (Int.not_lt.mp hnot) with
    | inl hlt => exact List.lt_asymm h (hy.numbers_lt hx (lt_iff.mpr hlt))
    | inr heq =>
      have hsame : y = x := by
        cases x with
        | mk a =>
          cases y with
          | mk b => exact congrArg mk (Int64.toInt_inj.mp heq)
      rw [hsame] at h
      exact List.lt_asymm h h
  · have hpx := gmtime_plain hx.seconds.1 hx.seconds.2
    have hpy := gmtime_plain hy.seconds.1 hy.seconds.2
    rw [hx.seconds_text,hy.seconds_text,
      line_lt_iff digitByte_rising (fields_fit hpx) (fields_fit hpy)]
    exact fields_lt_iff hx.seconds hy.seconds

theorem formatted_in_order_two :
    ((⟨1⟩ : TimeStamp).toFormattedString true < (⟨1577836800000000⟩ : TimeStamp).toFormattedString true ↔
      (⟨1⟩ : TimeStamp) < ⟨1577836800000000⟩) ∧
    ((⟨1⟩ : TimeStamp).toFormattedString false < (⟨1577836800000000⟩ : TimeStamp).toFormattedString false ↔
      (⟨1⟩ : TimeStamp).seconds < (⟨1577836800000000⟩ : TimeStamp).seconds) :=
  formatted_in_order ⟨by decide,by decide⟩ ⟨by decide,by decide⟩

end TimeStamp

/-! The names of log files. -/

def localtime (gmtoff : Int → Int) (t : Int) : Tm := gmtime (t+gmtoff t)

def getYearToSecondFormatTime (gmtoff : Int → Int) (t : Int) : Bytes :=
  let stm := localtime gmtoff t
  zeroPadded 4 (stm.tm_year+1900)++bytes "-"++zeroPadded 2 (stm.tm_mon+1)++bytes "-"++
    zeroPadded 2 stm.tm_mday++bytes "-"++zeroPadded 2 stm.tm_hour++bytes "-"++
    zeroPadded 2 stm.tm_min++bytes "-"++zeroPadded 2 stm.tm_sec

def LogFile.filename (baseName : Bytes) (gmtoff : Int → Int) (now : Int) : Bytes :=
  baseName++getYearToSecondFormatTime gmtoff now++bytes ".log"

/-- The local time is in a year of four digits behind 1969. -/
def Nameable (gmtoff : Int → Int) (t : Int) : Prop := 0 ≤ t+gmtoff t ∧ t+gmtoff t < farSecond

variable {gmtoff : Int → Int} {x y : Int} {baseName : Bytes}

theorem filename_eq_line (h : Nameable gmtoff x) : LogFile.filename baseName gmtoff x =
    baseName++line 10 Cpp.digitByte
      (dated (bytes "-") (bytes "-") (bytes "-") (bytes "-") (bytes "-") (bytes ".log"))
      (gmtime (x+gmtoff x)).fields := by
  rw [LogFile.filename,getYearToSecondFormatTime,line_fields (gmtime_plain h.1 h.2),localtime]
  simp

theorem prepend_lt_iff (s : Bytes) {u v : Bytes} : s++u < s++v ↔ u < v := by
  induction s with
  | nil => rfl
  | cons c s ih =>
    rw [List.cons_append,List.cons_append,List.cons_lt_cons_iff,ih]
    simp

theorem filename_lt_iff (hx : Nameable gmtoff x) (hy : Nameable gmtoff y) :
    LogFile.filename baseName gmtoff x < LogFile.filename baseName gmtoff y ↔
      x+gmtoff x < y+gmtoff y := by
  rw [filename_eq_line hx,filename_eq_line hy,prepend_lt_iff,
    line_lt_iff digitByte_rising (fields_fit (gmtime_plain hx.1 hx.2))
      (fields_fit (gmtime_plain hy.1 hy.2))]
  exact fields_lt_iff hx hy

theorem filename_eq_iff (hx : Nameable gmtoff x) (hy : Nameable gmtoff y) :
    LogFile.filename baseName gmtoff x = LogFile.filename baseName gmtoff y ↔
      x+gmtoff x = y+gmtoff y := by
  constructor
  · intro h
    have hnot {a b : Int} (ha : Nameable gmtoff a) (hb : Nameable gmtoff b)
        (he : LogFile.filename baseName gmtoff a = LogFile.filename baseName gmtoff b) :
        ¬ a+gmtoff a < b+gmtoff b := by
      intro hlt
      have hname : LogFile.filename baseName gmtoff a < LogFile.filename baseName gmtoff b :=
        (filename_lt_iff ha hb).mpr hlt
      rw [he] at hname
      exact List.lt_asymm hname hname
    have hxy := hnot hx hy h
    have hyx := hnot hy hx h.symm
    omega
  · intro h
    rw [filename_eq_line hx,filename_eq_line hy,h]

theorem pairwise_iff {α : Type} {R S : α → α → Prop} (hasymm : ∀ a b, R a b → ¬ R b a)
    {xs : List α} (h : xs.Pairwise R) :
    xs.Pairwise S ↔ ∀ a∈xs, ∀ b∈xs, R a b → S a b := by
  refine ⟨fun hS => ?_,fun hall => h.imp_of_mem fun ha hb hR => hall _ ha _ hb hR⟩
  induction xs with
  | nil => simp
  | cons x xs ih =>
    obtain ⟨hx,htail⟩ := List.pairwise_cons.mp h
    obtain ⟨hSx,hStail⟩ := List.pairwise_cons.mp hS
    intro a ha b hb hR
    cases List.mem_cons.mp ha with
    | inl hax =>
      subst hax
      cases List.mem_cons.mp hb with
      | inl hbx =>
        subst hbx
        exact absurd hR (hasymm _ _ hR)
      | inr hb => exact hSx b hb
    | inr hin =>
      cases List.mem_cons.mp hb with
      | inl hbx =>
        subst hbx
        exact absurd hR (hasymm _ _ (hx a hin))
      | inr hb => exact ih htail hStail a hin b hb hR

namespace Rolling
variable {s : Rolling} {as : List (Rolling×Action)}

theorem opened_in_order (hs : Inv s) : s.files.Pairwise fun f g => f.opened < g.opened :=
  List.pairwise_map.mp (List.isChain_iff_pairwise.mp hs.rolls)

/-- The names of the files of a log sort in the order of their opening exactly if local time
has gone on from each roll to each later one, and no name is used again, which would append to
an old file, exactly if the clock never showed one second at two rolls. -/
theorem file_names_iff {rollSize : Int64} {flushInterval checkEveryN now : Int}
    (hN : 1 ≤ checkEveryN) (hnow : 0 < now)
    (h : Run Step (start rollSize flushInterval checkEveryN now) as s)
    (hname : ∀ f∈s.files, Nameable gmtoff f.opened) (baseName : Bytes) :
    ((s.files.map fun f => LogFile.filename baseName gmtoff f.opened).Pairwise (·<·) ↔
      ∀ f∈s.files, ∀ g∈s.files, f.opened < g.opened →
        f.opened+gmtoff f.opened < g.opened+gmtoff g.opened) ∧
    ((s.files.map fun f => LogFile.filename baseName gmtoff f.opened).Nodup ↔
      ∀ f∈s.files, ∀ g∈s.files, f.opened < g.opened →
        f.opened+gmtoff f.opened ≠ g.opened+gmtoff g.opened) := by
  have horder := opened_in_order (run_inv h (start_inv hN hnow))
  have hasymm (f g : FileApp) : f.opened < g.opened → ¬ g.opened < f.opened :=
    fun hlt => Int.not_lt.mpr (Int.le_of_lt hlt)
  rw [List.Nodup,List.pairwise_map,List.pairwise_map,pairwise_iff hasymm horder,
    pairwise_iff hasymm horder]
  constructor
  · refine forall₂_congr fun f hf => forall₂_congr fun g hg => imp_congr_right fun _ => ?_
    exact filename_lt_iff (hname f hf) (hname g hg)
  · refine forall₂_congr fun f hf => forall₂_congr fun g hg => imp_congr_right fun _ => ?_
    exact not_congr (filename_eq_iff (hname f hf) (hname g hg))

theorem file_names_iff_nextDay : ∃ as s, Run Step (start 1000 3 1 5) as s ∧
    s.files.map FileApp.opened = [5,90000] ∧
    ((s.files.map fun f => LogFile.filename (bytes "log") (fun _ => 3600) f.opened).Pairwise (·<·) ↔
      ∀ f∈s.files, ∀ g∈s.files, f.opened < g.opened → f.opened+3600 < g.opened+3600) ∧
    ((s.files.map fun f => LogFile.filename (bytes "log") (fun _ => 3600) f.opened).Nodup ↔
      ∀ f∈s.files, ∀ g∈s.files, f.opened < g.opened → f.opened+3600 ≠ g.opened+3600) := by
  have hlog := start_log 1000 3 1 (by decide : (0:Int) < 5)
  have hpass : Step (start 1000 3 1 5) .pass { start 1000 3 1 5 with clock := 90000 } :=
    .pass (by decide)
  obtain ⟨g,hg,_,hopened⟩ := LogFile.append_ok (s := (start 1000 3 1 5).log) (by rw [hlog])
    (fun _ => 65) 2 90000 90000
  have hrun := Run.cons hpass (.cons (.append (by decide) (by decide) hg) (.nil _))
  have hfiles (records : List Bytes) :
      files ⟨(start 1000 3 1 5).log.maintain g 90000 90000,90000,records⟩ =
        [g,{ opened := 90000 }] := by
    have hday : period 90000 ≠ period 5 := by decide
    rw [files,hlog,LogFile.maintain]
    dsimp only
    by_cases hsize : 1000 < g.writtenBytes
    · rw [if_pos hsize]
      rfl
    · rw [if_neg hsize,if_pos (by decide),if_pos hday]
      rfl
  refine ⟨_,_,hrun,?_,file_names_iff (by decide) (by decide) hrun ?_ _⟩
  · rw [hfiles,List.map_cons,hopened]
    rfl
  · rw [hfiles]
    intro f hf
    cases List.mem_cons.mp hf with
    | inl hf =>
      rw [hf,Nameable,hopened]
      decide
    | inr hf =>
      rw [List.mem_singleton.mp hf,Nameable]
      decide

end Rolling

end AdlServer.Log
