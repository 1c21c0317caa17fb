import UvaOs.Ipc.Timer

/-! Timekeeping in kernel/timer.c: the 64-bit counter from its two registers, `current_time`, and
`sys_uptime` in kernel/sys.c. -/
namespace UvaOs.Timers

/-! Model -/

def TICKPERSEC : Nat := CLOCKHZ

/-- One run of `current_counter`: the hardware counter when each half of it is read. C leaves the
order of the two reads open. -/
structure Sample where
  chi : Nat
  clo : Nat
  chi_lt : chi < 2 ^ 64
  clo_lt : clo < 2 ^ 64

namespace Sample

def start (x : Sample) : Nat := min x.chi x.clo

def stop (x : Sample) : Nat := max x.chi x.clo

/- The registers `TIMER_CHI` and `TIMER_CLO`. -/
def high (x : Sample) : Nat := x.chi / 2 ^ 32

def low (x : Sample) : Nat := x.clo % 2 ^ 32

def currentCounter (x : Sample) : Nat := x.high <<< 32 ||| x.low

end Sample

/-- `sec` and `msec`. The product is `unsigned`, the difference `unsigned long`. -/
def currentTime (cur : Nat) : Nat × Nat :=
  let sec := cur / TICKPERSEC % 2 ^ 32
  let cur := (cur + 2 ^ 64 - sec * TICKPERSEC % 2 ^ 32) % 2 ^ 64
  (sec, cur / TICKPERMS % 2 ^ 32)

def sysUptime (cur : Nat) : Int :=
  let time := currentTime cur
  (BitVec.ofNat 32 (time.1 * 1000 + time.2)).toInt

/-! What the clock is for -/

/-- The value of the counter is one that it had between the two reads. -/
def Between (x : Sample) : Prop := x.start ≤ x.currentCounter ∧ x.currentCounter ≤ x.stop

/-- Seconds and milliseconds are those of the counter, as long as the seconds fit. -/
def Right (cur : Nat) : Prop :=
  cur / TICKPERSEC < 2 ^ 32 →
    (currentTime cur).2 < 1000 ∧ (currentTime cur).1 * 1000 + (currentTime cur).2 = cur / 1000

/-- Two calls of `sys_uptime`, each as it should be. In the first 2^31 ms the second result is
not less than the first. -/
structure Timely (x y : Sample) : Prop where
  first : Between x ∧ Right x.currentCounter
  second : Between y ∧ Right y.currentCounter
  monotone : y.stop < 2 ^ 31 * 1000 → sysUptime x.currentCounter ≤ sysUptime y.currentCounter

/-! Reading the counter -/

/-- The low half does not wrap around between the two reads. -/
def Steady (x : Sample) : Prop := x.start % 2 ^ 32 ≤ x.stop % 2 ^ 32

theorem currentCounter_eq (x : Sample) : x.currentCounter = x.chi / 2 ^ 32 * 2 ^ 32 + x.clo % 2 ^ 32 := by
  have small : x.clo % 2 ^ 32 < 2 ^ 32 := Nat.mod_lt _ (by decide)
  unfold Sample.currentCounter Sample.high Sample.low
  rw [← Nat.shiftLeft_add_eq_or_of_lt small, Nat.shiftLeft_eq]

theorem between_iff (x : Sample) : Between x ↔ Steady x := by
  unfold Between Steady Sample.start Sample.stop
  rw [currentCounter_eq]
  rcases Nat.le_total x.chi x.clo with order | order
  · rw [Nat.min_eq_left order, Nat.max_eq_right order]
    omega
  · rw [Nat.min_eq_right order, Nat.max_eq_left order]
    omega

/-! Converting it -/

def periods (cur : Nat) : Nat := cur / TICKPERSEC * TICKPERSEC / 2 ^ 32

theorem currentTime_eq {cur : Nat} (fits : cur / TICKPERSEC < 2 ^ 32) :
    currentTime cur = (cur / TICKPERSEC, (cur % TICKPERSEC + periods cur * 2 ^ 32) / 1000 % 2 ^ 32) := by
  have sec : cur / TICKPERSEC % 2 ^ 32 = cur / TICKPERSEC := Nat.mod_eq_of_lt fits
  unfold currentTime periods
  simp only [sec]
  congr 3
  simp only [TICKPERSEC, CLOCKHZ] at *
  omega

theorem right_iff (cur : Nat) :
    Right cur ↔ (cur / TICKPERSEC < 2 ^ 32 → periods cur % 1000 = 0) := by
  unfold Right
  refine forall_congr' fun fits => ?_
  rw [currentTime_eq fits]
  generalize periods cur = k
  simp only [TICKPERSEC, CLOCKHZ] at *
  have whole : cur / 1000 = cur / 1000000 * 1000 + cur % 1000000 / 1000 := by omega
  have rest : cur % 1000000 < 1000000 := Nat.mod_lt _ (by decide)
  rw [whole]
  generalize cur % 1000000 = r at *
  omega

/-- What the registers give: the low half has not wrapped, and the whole seconds of the counter,
in ticks, are a multiple of 1000 times 2^32 and a rest of less than 2^32. In the first 49 days that
is a time of less than 4295 s. -/
structure Sane (x : Sample) : Prop where
  steady : Steady x
  seconds : (x.high * 2 ^ 32 + x.low) / TICKPERSEC < 2 ^ 32 →
    periods (x.high * 2 ^ 32 + x.low) % 1000 = 0

theorem sane_iff (x : Sample) : Between x ∧ Right x.currentCounter ↔ Sane x := by
  rw [between_iff, right_iff, currentCounter_eq]
  exact ⟨fun h => ⟨h.1, h.2⟩, fun h => ⟨h.steady, h.seconds⟩⟩

theorem sysUptime_eq {cur : Nat} (right : Right cur) (early : cur < 2 ^ 31 * 1000) :
    sysUptime cur = cur / 1000 := by
  have fits : cur / TICKPERSEC < 2 ^ 32 := by
    simp only [TICKPERSEC, CLOCKHZ]
    omega
  have small : cur / 1000 < 2 ^ 31 := by omega
  unfold sysUptime
  dsimp only
  rw [(right fits).2, BitVec.toInt_eq_toNat_of_lt, BitVec.toNat_ofNat, Nat.mod_eq_of_lt (by omega)]
  · rfl
  · rw [BitVec.toNat_ofNat, Nat.mod_eq_of_lt (by omega)]
    omega

/-- Of two calls of `sys_uptime`, one after the other, both are right and in order if and only if
the registers read in each of them are sane. -/
theorem uptime_timely {x y : Sample} (order : x.stop ≤ y.start) : Timely x y ↔ Sane x ∧ Sane y := by
  constructor
  · intro timely
    exact ⟨(sane_iff x).mp timely.first, (sane_iff y).mp timely.second⟩
  · rintro ⟨first, second⟩
    have before := (sane_iff x).mpr first
    have after := (sane_iff y).mpr second
    refine ⟨before, after, fun early => ?_⟩
    have below := after.1.2
    have between := Nat.le_trans before.1.2 (Nat.le_trans order after.1.1)
    rw [sysUptime_eq before.2 (by omega), sysUptime_eq after.2 (by omega)]
    omega

def sampleAt (c : Nat) (small : c < 2 ^ 64) : Sample := ⟨c, c, small, small⟩

theorem uptime_timely_hour :
    Timely (sampleAt (3600 * 10 ^ 6) (by decide)) (sampleAt (3601 * 10 ^ 6) (by decide)) :=
  (uptime_timely (by decide)).mpr ⟨⟨Nat.le_refl _, by decide⟩, ⟨Nat.le_refl _, by decide⟩⟩

/- A carry between the reads of the halves, a time of 4295 s with 4294967 ms, and an uptime that
turns negative after twelve days. -/
theorem time_goes_wrong :
    (Sample.mk (2 ^ 32 - 1) (2 ^ 32) (by decide) (by decide)).currentCounter = 0 ∧
      currentTime (4295 * 10 ^ 6) = (4295, 4294967) ∧
      sysUptime 1073741999999 = 2143188856 ∧ sysUptime 1073742000000 = -2147483472 ∧
      ¬ Timely (sampleAt 1073741999999 (by decide)) (sampleAt 1073742000000 (by decide)) := by
  refine ⟨by decide, by decide, by decide, by decide, fun timely => ?_⟩
  have backwards := timely.monotone (by decide)
  revert backwards
  decide

end UvaOs.Timers
