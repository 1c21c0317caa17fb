import UvaOs.Ipc.Vtimers

/-! The time that `adjust_sys_timer` programs while the counter stands still, kernel/timer.c. -/
namespace UvaOs.Vtimers

open List
open UvaOs.Timers (N_TIMERS FOREVER)

variable {s t : State} {slots l pre post : List Nat} {n d b tt : Nat}

/-- The deadlines of the armed slots that have not expired, in the order of the slots. -/
def ahead (s : State) (slots : List Nat) : List Nat :=
  (slots.filter fun t => s.handler t ≠ none ∧ s.now ≤ s.elapseat t).map s.elapseat

/-- No timer that is armed has expired, and the compare value is in the 10 ms from the earliest
deadline on. -/
structure OnTime (s : State) : Prop where
  running : s.halted = false
  unexpired : ∀ t < N_TIMERS, s.handler t ≠ none → s.now ≤ s.elapseat t
  prompt : ∀ d ∈ ahead s (range N_TIMERS), (∀ e ∈ ahead s (range N_TIMERS), d ≤ e) →
    ∃ at_, d ≤ at_ ∧ at_ ≤ d + 10 * 1000 ∧ s.compare = at_ % 2 ^ 32

/-! The running minimum -/

def slacken (n d : Nat) : Nat := if d < n then d + 10 * 1000 else n

theorem foldl_slacken (all : ∀ e ∈ l, d ≤ e ∧ e + 10 * 1000 < b) (lo : d + 10 * 1000 ≤ n)
    (lt : n < b) : d + 10 * 1000 ≤ l.foldl slacken n ∧ l.foldl slacken n < b ∧
      l.foldl slacken n ≤ n + 10 * 1000 * l.length := by
  induction l generalizing n with
  | nil => exact ⟨lo, lt, Nat.le_refl _⟩
  | cons e l ih =>
    have rest := ih (n := slacken n e) fun e mem => all e (mem_cons_of_mem _ mem)
    unfold slacken at rest ⊢
    rw [foldl_cons, length_cons]
    split at rest <;> grind

theorem foldl_slacken_eq (all : ∀ e ∈ l, d < e) (lo : d + 10 * 1000 ≤ n) :
    l.foldl slacken n = d + 10 * 1000 ↔ n = d + 10 * 1000 ∧ ∀ e ∈ l, d + 10 * 1000 ≤ e := by
  induction l generalizing n with
  | nil => simp
  | cons e l ih =>
    have here := all e mem_cons_self
    have rest := ih (n := slacken n e) fun e mem => all e (mem_cons_of_mem _ mem)
    unfold slacken at rest ⊢
    rw [foldl_cons, forall_mem_cons]
    split at rest <;> grind

theorem last_least (some_ : l ≠ []) :
    ∃ pre d post, l = pre ++ d :: post ∧ (∀ e ∈ pre, d ≤ e) ∧ ∀ e ∈ post, d < e := by
  induction l with
  | nil => exact absurd rfl some_
  | cons e l ih =>
    by_cases last : l = []
    · exact ⟨[], e, [], by rw [last, nil_append], nofun, nofun⟩
    · obtain ⟨pre, d, post, rfl, below, above⟩ := ih last
      by_cases le : d ≤ e
      · exact ⟨e :: pre, d, post, rfl, forall_mem_cons.mpr ⟨le, below⟩, above⟩
      · exact ⟨[], e, pre ++ d :: post, rfl, nofun, by grind⟩

/-! The loop -/

theorem mem_ahead : d ∈ ahead s slots ↔
    ∃ t ∈ slots, (s.handler t ≠ none ∧ s.now ≤ s.elapseat t) ∧ s.elapseat t = d := by
  simp [ahead, and_assoc]

theorem ahead_cons : ahead s (tt :: slots) =
    if s.handler tt ≠ none ∧ s.now ≤ s.elapseat tt then s.elapseat tt :: ahead s slots
    else ahead s slots := by
  unfold ahead
  rw [filter_cons]
  split <;> simp_all

/-- What the loop does to the table: it clears the slots that have expired. -/
structure Still (s : State) (slots : List Nat) (t : State) : Prop where
  now : t.now = s.now
  halted : t.halted = s.halted
  compare : t.compare = s.compare
  elapseat : t.elapseat = s.elapseat
  handler : ∀ u, t.handler u = if u ∈ slots ∧ s.elapseat u < s.now then none else s.handler u

theorem Still.ahead (still : Still s slots t) (l : List Nat) : ahead t l = ahead s l := by
  unfold Vtimers.ahead
  rw [still.elapseat, still.now]
  refine congrArg _ (filter_congr fun u _ => ?_)
  rw [still.handler]
  grind

theorem Still.skip (still : Still s slots t) (stays : s.elapseat tt < s.now → s.handler tt = none) :
    Still s (tt :: slots) t := by
  refine { still with handler := fun u => ?_ }
  rw [still.handler]
  grind

theorem still_expire (gone : s.elapseat tt < s.now) (h : Nat) : Still s [tt] (s.expire tt h) := by
  refine ⟨rfl, rfl, rfl, funext (State.elapseat_expire s tt h), fun u => ?_⟩
  rw [State.handler_expire]
  grind

theorem pass_zero (s : State) : s.pass 0 = s := by simp [State.pass]

theorem adjustSlots_still (later : s.now ≤ n)
    (room : ∀ t ∈ slots, s.handler t ≠ none → s.elapseat t + 10 * 1000 < FOREVER) :
    Still s slots (adjustSlots (fun _ => 0) slots (s, n)).1 ∧
      (adjustSlots (fun _ => 0) slots (s, n)).2 = (ahead s slots).foldl slacken n := by
  induction slots generalizing s n with
  | nil => exact ⟨⟨rfl, rfl, rfl, rfl, fun u => (if_neg (by simp)).symm⟩, rfl⟩
  | cons tt rest ih =>
    have room' := fun t mem => room t (mem_cons_of_mem tt mem)
    rw [adjustSlots, ahead_cons]
    split
    · next off =>
      obtain ⟨still, eq⟩ := ih later room'
      exact ⟨still.skip fun _ => off, by rw [eq, if_neg (by simp [off])]⟩
    · next h on =>
      have fits := room tt mem_cons_self (by simp [on])
      rw [pass_zero]
      by_cases gone : s.elapseat tt < s.now
      · have first := still_expire gone h
        obtain ⟨still, eq⟩ := ih (s := s.expire tt h) later fun t mem armed => by
          rw [first.elapseat]
          exact room' t mem fun off => armed (by rw [first.handler, off, ite_self])
        rw [if_pos (Nat.lt_of_lt_of_le gone later), if_pos gone,
          if_neg (fun both => Nat.not_lt.mpr both.2 gone), ← first.ahead]
        refine ⟨⟨still.now, still.halted, still.compare, still.elapseat.trans first.elapseat, fun u => ?_⟩,
          eq⟩
        refine (still.handler u).trans ?_
        rw [first.handler, first.elapseat, first.now]
        grind
      · have due : s.handler tt ≠ none ∧ s.now ≤ s.elapseat tt := ⟨by simp [on], Nat.not_lt.mp gone⟩
        rw [if_pos due, foldl_cons, slacken]
        split
        · have wrap : (s.elapseat tt + 10 * 1000) % 2 ^ 64 = s.elapseat tt + 10 * 1000 := by
            unfold FOREVER at fits
            omega
          simp only [if_neg gone, wrap]
          obtain ⟨still, eq⟩ := ih (n := s.elapseat tt + 10 * 1000) (by omega) room'
          exact ⟨still.skip fun is => absurd is gone, eq⟩
        · obtain ⟨still, eq⟩ := ih later room'
          exact ⟨still.skip fun is => absurd is gone, eq⟩

section

variable (now : s.now ≤ FOREVER) (running : s.halted = false)
  (room : ∀ t < N_TIMERS, s.handler t ≠ none → s.elapseat t + 10 * 1000 < FOREVER)

include now running room

theorem onTime_iff (later : s.now ≤ n)
    (eq : (ahead s (range N_TIMERS)).foldl slacken FOREVER = n) :
    OnTime (adjustSysTimer (fun _ => 0) s) ↔
      ∀ d ∈ ahead s (range N_TIMERS), (∀ e ∈ ahead s (range N_TIMERS), d ≤ e) →
        ∃ at_, d ≤ at_ ∧ at_ ≤ d + 10 * 1000 ∧
          (if n = FOREVER then s.compare else n % 2 ^ 32) = at_ % 2 ^ 32 := by
  obtain ⟨still, last⟩ := adjustSlots_still now fun t mem => room t (mem_range.mp mem)
  rw [eq] at last
  unfold adjustSysTimer
  simp only [pass_zero, last]
  rw [if_neg (by rw [still.now]; exact Nat.not_lt.mpr later)]
  generalize (adjustSlots (fun _ => 0) (range N_TIMERS) (s, FOREVER)).1 = t at still
  have unexpired : ∀ u < N_TIMERS, t.handler u ≠ none → t.now ≤ t.elapseat u := by
    intro u lt armed
    rw [still.handler] at armed
    rw [still.now, still.elapseat]
    exact Nat.not_lt.mp fun gone => armed (if_pos ⟨mem_range.mpr lt, gone⟩)
  have set : ∀ c, OnTime { t with compare := c } ↔
      ∀ d ∈ ahead s (range N_TIMERS), (∀ e ∈ ahead s (range N_TIMERS), d ≤ e) →
        ∃ at_, d ≤ at_ ∧ at_ ≤ d + 10 * 1000 ∧ c = at_ % 2 ^ 32 := by
    intro c
    rw [← still.ahead]
    exact ⟨OnTime.prompt, fun prompt => ⟨still.halted.trans running, unexpired, prompt⟩⟩
  split
  · rw [← still.compare]
    exact set t.compare
  · exact set _

/-- The slack makes the compare value too late when a slot behind the one with the earliest
deadline is due less than 10 ms after it. -/
theorem sys_timer_on_time : OnTime (adjustSysTimer (fun _ => 0) s) ↔
    ∀ pre d post, ahead s (range N_TIMERS) = pre ++ d :: post → (∀ e ∈ pre, d ≤ e) →
      (∀ e ∈ post, d < e) → ∀ e ∈ post, d + 10 * 1000 ≤ e := by
  have whole : ∀ pre d post, ahead s (range N_TIMERS) = pre ++ d :: post → (∀ e ∈ pre, d ≤ e) →
      (∀ e ∈ post, d < e) →
      (OnTime (adjustSysTimer (fun _ => 0) s) ↔ ∀ e ∈ post, d + 10 * 1000 ≤ e) := by
    intro pre d post split_ below above
    have fits : ∀ e ∈ pre ++ d :: post, s.now ≤ e ∧ e + 10 * 1000 < FOREVER := by
      intro e mem
      rw [← split_, mem_ahead] at mem
      obtain ⟨t, lt, due, rfl⟩ := mem
      exact ⟨due.2, room t (mem_range.mp lt) due.1⟩
    have least : ∀ e ∈ pre ++ d :: post, d ≤ e := by grind
    have count : post.length ≤ N_TIMERS := by
      have all := length_filter_le (fun t => decide (s.handler t ≠ none ∧ s.now ≤ s.elapseat t))
        (range N_TIMERS)
      have all' := congrArg length split_
      simp [ahead] at all all'
      omega
    -- the slot that is due first replaces the minimum before it, whatever that is
    have here := fits d (by simp)
    have first := foldl_slacken (l := pre) (d := d) (b := FOREVER + 1) (n := FOREVER)
      (by grind) (by omega) (by omega)
    have n := foldl_slacken (l := post) (d := d) (b := FOREVER) (n := d + 10 * 1000)
      (fun e mem => ⟨Nat.le_of_lt (above e mem), (fits e (by simp [mem])).2⟩) (Nat.le_refl _) here.2
    have last := foldl_slacken_eq above (Nat.le_refl (d + 10 * 1000))
    rw [onTime_iff now running room (n := post.foldl slacken (d + 10 * 1000)) (by omega)
      (by rw [split_, foldl_append, foldl_cons, slacken, if_pos (by omega)]), split_]
    generalize post.foldl slacken (d + 10 * 1000) = late at n last
    rw [if_neg (by omega), show (∀ e ∈ post, d + 10 * 1000 ≤ e) ↔ late = d + 10 * 1000 by simp [last]]
    constructor
    · intro prompt
      obtain ⟨at_, lo, hi, same⟩ := prompt d (by simp) least
      unfold N_TIMERS at count
      omega
    · intro same e mem first
      have le := first d (by simp)
      have ge := least e mem
      exact ⟨late, by omega, by omega, rfl⟩
  constructor
  · intro onTime pre d post split_ below above
    exact (whole pre d post split_ below above).mp onTime
  · intro apart
    by_cases none_ : ahead s (range N_TIMERS) = []
    · rw [onTime_iff now running room now (by rw [none_]; rfl), none_]
      exact nofun
    · obtain ⟨pre, d, post, split_, below, above⟩ := last_least none_
      exact (whole pre d post split_ below above).mpr (apart pre d post split_ below above)

end

def armed (l : List Nat) : State :=
  { boot with timer := fun t => ⟨if t < l.length then some 7 else none, l.getD t 0, 0, 0⟩ }

theorem sys_timer_on_time_one : OnTime (adjustSysTimer (fun _ => 0) (armed [5000])) :=
  (sys_timer_on_time (by decide) rfl (by decide +kernel)).mpr fun pre d post split_ _ _ => by
    rw [show ahead (armed [5000]) (range N_TIMERS) = [5000] by decide +kernel] at split_
    have count := congrArg length split_
    simp only [length_append, length_cons, length_nil] at count
    rw [length_eq_zero_iff.mp (by omega : post.length = 0)]
    exact nofun

theorem sys_timer_late : (adjustSysTimer (fun _ => 0) (armed [5000, 9000])).compare = 19000 ∧
    ¬ OnTime (adjustSysTimer (fun _ => 0) (armed [5000, 9000])) := by
  have late : (adjustSysTimer (fun _ => 0) (armed [5000, 9000])).compare = 19000 := by decide +kernel
  refine ⟨late, fun onTime => ?_⟩
  obtain ⟨at_, lo, hi, same⟩ := onTime.prompt 5000 (by decide +kernel) (by decide +kernel)
  omega

end UvaOs.Vtimers
