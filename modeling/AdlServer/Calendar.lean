import Mathlib.Tactic.Common

/-! The Gregorian calendar, without end in both directions. It repeats itself every 400
years, which are 146097 days; inside them years are counted from March to February, so that
the day a leap year has more is its last. -/
namespace AdlServer.Calendar

/-- Which of the 400 years a day falls in. Three centuries have 36524 days and the last one
more; four years have 1461, the first three of them 365 each. -/
def yearOfEra (doe : Int) : Int :=
  let c := min (doe/36524) 3
  let r := doe-c*36524
  c*100+r/1461*4+min (r%1461/365) 3

def daysBefore (yoe : Int) : Int := 365*yoe+yoe/4-yoe/100

def dayOfYear (doe : Int) : Int := doe-daysBefore (yearOfEra doe)

def civil (day : Int) : Int×Int×Int :=
  let doe := (day+719468)%146097
  let doy := dayOfYear doe
  let mp := (5*doy+2)/153
  let month := if mp < 10 then mp+3 else mp-9
  (yearOfEra doe+(day+719468)/146097*400+(if month ≤ 2 then 1 else 0),month,
    doy-(153*mp+2)/5+1)

theorem yearOfEra_eq (doe : Int) (h : 0 ≤ doe) (h' : doe < 146097) :
    ∃ c q a : Int, yearOfEra doe = 100*c+4*q+a ∧ (0 ≤ c ∧ c ≤ 3) ∧ (0 ≤ q ∧ q ≤ 24) ∧
      (0 ≤ a ∧ a ≤ 3) ∧ 0 ≤ doe-(36524*c+1461*q+365*a) ∧ doe-(36524*c+1461*q+365*a) ≤ 365 := by
  refine ⟨min (doe/36524) 3,(doe-min (doe/36524) 3*36524)/1461,
    min ((doe-min (doe/36524) 3*36524)%1461/365) 3,?_,?_,?_,?_,?_,?_⟩
  · rw [yearOfEra]
    omega
  · omega
  · omega
  · omega
  · omega
  · omega

theorem yearOfEra_bounds (doe : Int) (h : 0 ≤ doe) (h' : doe < 146097) :
    0 ≤ yearOfEra doe ∧ yearOfEra doe ≤ 399 := by
  obtain ⟨c,q,a,he,hc,hq,ha,_⟩ := yearOfEra_eq doe h h'
  omega

theorem dayOfYear_bounds (doe : Int) (h : 0 ≤ doe) (h' : doe < 146097) :
    0 ≤ dayOfYear doe ∧ dayOfYear doe ≤ 365 := by
  obtain ⟨c,q,a,he,hc,hq,ha,hlo,hhi⟩ := yearOfEra_eq doe h h'
  have h4 : (100*c+4*q+a)/4 = 25*c+q := by omega
  have h100 : (100*c+4*q+a)/100 = c := by omega
  rw [dayOfYear,he,daysBefore,h4,h100]
  omega

theorem civil_bounds (n : Int) :
    (1 ≤ (civil n).2.1 ∧ (civil n).2.1 ≤ 12) ∧ (1 ≤ (civil n).2.2 ∧ (civil n).2.2 ≤ 31) := by
  obtain ⟨hy,hy'⟩ := dayOfYear_bounds ((n+719468)%146097) (by omega) (by omega)
  rw [civil]
  dsimp only
  generalize dayOfYear ((n+719468)%146097) = doy at *
  omega

theorem civil_year_bounds {n k : Int} (h : -(k*146097) ≤ n) (h' : n < k*146097) :
    -(400*k) ≤ (civil n).1 ∧ (civil n).1 ≤ 400*k+2400 := by
  obtain ⟨h0,h399⟩ := yearOfEra_bounds ((n+719468)%146097) (by omega) (by omega)
  rw [civil]
  dsimp only
  generalize yearOfEra ((n+719468)%146097) = yoe at *
  omega

/-! Dates follow each other as days do. -/

theorem yearOfEra_mono {x y : Int} (hx : 0 ≤ x) (h : x ≤ y) (hy : y < 146097) :
    yearOfEra x ≤ yearOfEra y := by
  rw [yearOfEra,yearOfEra]
  have hcentury : min (x/36524) 3 ≤ min (y/36524) 3 := by omega
  generalize hc : min (x/36524) 3 = c at *
  generalize hd : min (y/36524) 3 = d at *
  by_cases hlt : c < d
  · omega
  · obtain rfl : c = d := by omega
    have hfour : (x-c*36524)/1461 ≤ (y-c*36524)/1461 := by omega
    omega

def marchYear (n : Int) : Int := yearOfEra ((n+719468)%146097)+(n+719468)/146097*400

def marchDay (n : Int) : Int := dayOfYear ((n+719468)%146097)

theorem marchYear_lt {n m : Int} (h : n < m) :
    marchYear n < marchYear m ∨ marchYear n = marchYear m ∧ marchDay n < marchDay m := by
  have hn := yearOfEra_bounds ((n+719468)%146097) (by omega) (by omega)
  have hm := yearOfEra_bounds ((m+719468)%146097) (by omega) (by omega)
  rw [marchYear,marchYear,marchDay,marchDay,dayOfYear,dayOfYear]
  by_cases hera : (n+719468)/146097 < (m+719468)/146097
  · omega
  · have hsame : (n+719468)/146097 = (m+719468)/146097 := by omega
    have hlt : (n+719468)%146097 < (m+719468)%146097 := by omega
    have hyear := yearOfEra_mono (by omega) (Int.le_of_lt hlt) (by omega)
    rw [hsame]
    by_cases he : yearOfEra ((n+719468)%146097) = yearOfEra ((m+719468)%146097)
    · rw [he]
      exact .inr ⟨rfl,by omega⟩
    · exact .inl (by omega)

theorem civil_march (n : Int) : 12*(civil n).1+(civil n).2.1 =
      12*marchYear n+(5*marchDay n+2)/153+3 ∧
    (civil n).2.2 = marchDay n-(153*((5*marchDay n+2)/153)+2)/5+1 := by
  refine ⟨?_,rfl⟩
  have hdoy := dayOfYear_bounds ((n+719468)%146097) (by omega) (by omega)
  have hmp : 0 ≤ (5*dayOfYear ((n+719468)%146097)+2)/153 ∧
      (5*dayOfYear ((n+719468)%146097)+2)/153 ≤ 11 := by omega
  rw [civil,marchYear,marchDay]
  dsimp only
  generalize (5*dayOfYear ((n+719468)%146097)+2)/153 = mp at hmp
  by_cases hten : mp < 10
  · rw [if_pos hten]
    split_ifs <;> omega
  · rw [if_neg hten]
    split_ifs <;> omega

theorem civil_lt {n m : Int} (h : n < m) : (civil n).1 < (civil m).1 ∨
    (civil n).1 = (civil m).1 ∧ ((civil n).2.1 < (civil m).2.1 ∨
      (civil n).2.1 = (civil m).2.1 ∧ (civil n).2.2 < (civil m).2.2) := by
  obtain ⟨⟨hn,hn'⟩,_⟩ := civil_bounds n
  obtain ⟨⟨hm,hm'⟩,_⟩ := civil_bounds m
  obtain ⟨hmonths,hday⟩ := civil_march n
  obtain ⟨hmonths',hday'⟩ := civil_march m
  have hdoy : 0 ≤ marchDay n ∧ marchDay n ≤ 365 := dayOfYear_bounds _ (by omega) (by omega)
  have hdoy' : 0 ≤ marchDay m ∧ marchDay m ≤ 365 := dayOfYear_bounds _ (by omega) (by omega)
  cases marchYear_lt h with
  | inl hlt => omega
  | inr heq =>
    obtain ⟨hyear,hlt⟩ := heq
    by_cases hmp : (5*marchDay n+2)/153 = (5*marchDay m+2)/153
    · omega
    · omega

end AdlServer.Calendar
