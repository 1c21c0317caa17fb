import UvaOs.Sched.Slots
import UvaOs.Sys.Model
import UvaOs.Vm.Full

/-! When the calls of `Sys.Model` come back. Several of them reach a `BUG` for arguments
that any program can pass; `Meets` is what a call must meet, and in runs that keep to it
no call halts, and one that has not returned is waiting for what it asked for. -/
namespace UvaOs.Sys

open List

open UvaOs.Files (NR_TASKS)
open Prog (Reach wp wp_returns)
open UvaOs.Vm (Apart AcceptsRange USER_VA_END)

/-! What can happen, and what the calls need -/

/-- The task of the core is in a read of `f`, or in a write to it. -/
def Job.on (f : Nat) : Job → Bool
  | .reading g _ | .writing g _ _ => g = f
  | _ => false

/-- What the types of C and the rest of the kernel make sure of. -/
def Real (s : State) : Event → Prop
  | .call _ (.semcreate count) _ => -2 ^ 31 ≤ count ∧ count < 2 ^ 31
  -- `sys_open` fills a new `procfs_state`, and a file in use is not opened anew
  | .openFile f st =>
    st.ksize < MAX_PROCFS_SIZE ∧ st.koff = 0 ∧ st.uoff = 0 ∧ ∀ i, (s.job i).on f = false
  | _ => True

/-- The two halves of the counter are read consistently, and it is far from its end. -/
structure Clocked (s : State) (reads : Nat → Nat) : Prop where
  mono : Monotone reads
  from_ : s.clock ≤ reads 0
  below : ∀ r, reads r < 2 ^ 63

/-- `adjust_sys_timer`, with its readings from number `r` on, takes at most 10 ms. -/
def Prompt (reads : Nat → Nat) (r : Nat) : Prop := reads (r + N_TIMERS) ≤ reads r + 10 * 1000

/-- The address space is in order and all of `[va, va + len)` is there. -/
def UserRange (s : State) (i va len : Nat) : Prop :=
  Apart s.vm (s.mm i) ∧ va ≤ USER_VA_END ∧ AcceptsRange s.vm (s.mm i) va len

def MeetsCall (s : State) (i : Nat) (reads : Nat → Nat) : Call → Prop
  | .kill pid => ∀ j < NR_TASKS, pid = j → (s.sched.task j).state ≠ .unused
  | .semcreate count => 0 ≤ count
  | .semfree _ | .semp _ => True
  | .semv sem => ∀ k < NSEM, sem = k → (s.sem k).count < 2 ^ 31 - 1
  | .sleep ms =>
    0 ≤ ms ∧ TICKPERMS * ms < 2 ^ 31 ∧ (∃ t < N_TIMERS, (s.timer t).handler = false) ∧
      Clocked s reads ∧ Prompt reads 2
  | .read f dst n =>
    (s.file f).readable = true → (∀ j, (s.job j).on f = false) ∧
      UserRange s i dst (min (n % 2 ^ 32).toNat ((s.file f).ksize - (s.file f).koff))
  | .write f src n =>
    (s.file f).writable = true → (∀ j, (s.job j).on f = false) ∧
      UserRange s i src (min (n % 2 ^ 32).toNat (MAX_PROCFS_SIZE - (s.file f).uoff))

def Meets (s : State) : Event → Prop
  | .call c k reads => ∀ i, current s c = some i → MeetsCall s i reads k
  | .turn _ reads => Clocked s reads
  | .irq reads => Clocked s reads ∧ Prompt reads 1
  | _ => True

/-! The states of such runs -/

/-- The deadlines of the timers can be given the slack of 10 ms. -/
def Armed (timer : Nat → Timer) : Prop :=
  ∀ t, (timer t).handler = true → (timer t).elapseat + 10 * 1000 < 2 ^ 64

structure Inv (s : State) : Prop where
  sem : ∀ k, 0 ≤ (s.sem k).count ∧ (s.sem k).count < 2 ^ 31
  armed : Armed s.timer
  size : ∀ f, (s.file f).ksize < MAX_PROCFS_SIZE
  koff : ∀ f, (s.file f).koff ≤ (s.file f).ksize
  uoff : ∀ f, (s.file f).uoff ≤ MAX_PROCFS_SIZE
  alone : ∀ i j f, (s.job i).on f = true → (s.job j).on f = true → i = j
  reading : ∀ i f len, s.job i = .reading f len → (s.file f).koff + len ≤ (s.file f).ksize
  writing : ∀ i f off len, s.job i = .writing f off len →
    (s.file f).uoff = off ∧ off + len ≤ MAX_PROCFS_SIZE
  asleep : ∀ i t c0 ms, s.job i = .sleep t c0 ms →
    0 ≤ ms ∧ TICKPERMS * ms < 2 ^ 31 ∧ c0 ≤ s.clock

def Fits (s : State) (i : Nat) : Job → Prop
  | .none | .semp _ => True
  | .sleep _ c0 ms => 0 ≤ ms ∧ TICKPERMS * ms < 2 ^ 31 ∧ c0 ≤ s.clock
  | .reading f len =>
    (∀ j, j ≠ i → (s.job j).on f = false) ∧ (s.file f).koff + len ≤ (s.file f).ksize
  | .writing f off len =>
    (∀ j, j ≠ i → (s.job j).on f = false) ∧ (s.file f).uoff = off ∧ off + len ≤ MAX_PROCFS_SIZE

theorem Fits.others {s : State} {i f j : Nat} {job : Job} (fits : Fits s i job)
    (on : job.on f = true) (other : j ≠ i) : (s.job j).on f = false := by
  cases job with
  | none => cases on
  | semp k => cases on
  | sleep t c0 ms => cases on
  | reading g len =>
    obtain rfl : g = f := of_decide_eq_true on
    exact fits.1 j other
  | writing g off len =>
    obtain rfl : g = f := of_decide_eq_true on
    exact fits.1 j other

namespace Inv

variable {s : State}

section

variable (inv : Inv s)
include inv

theorem onSched (sched : Sched.State) : Inv { s with sched := sched } := { inv with }

theorem onVm (vm : Vm.VmState) (mm : Nat → Nat) : Inv { s with vm := vm, mm := mm } :=
  { inv with }

theorem onTimer {timer : Nat → Timer} (armed : Armed timer) : Inv { s with timer := timer } :=
  { inv with armed := armed }

theorem onClock {now : Nat} (later : s.clock ≤ now) : Inv { s with clock := now } := by
  refine { inv with asleep := ?_ }
  intro i t c0 ms job
  obtain ⟨pos, small, before⟩ := inv.asleep i t c0 ms job
  exact ⟨pos, small, Nat.le_trans before later⟩

theorem putSem {k : Nat} {x : Sem} (lo : 0 ≤ x.count) (hi : x.count < 2 ^ 31) :
    Inv (s.putSem k x) := by
  refine { inv with sem := ?_ }
  intro j
  by_cases same : j = k
  · rw [same, State.putSem_self]
    exact ⟨lo, hi⟩
  · rw [State.putSem_of_ne s x same]
    exact inv.sem j

theorem goTo {i : Nat} (job : Job) (fits : Fits s i job) : Inv (s.goTo i job) := by
  have self := s.goTo_self i job
  have rest : ∀ j, j ≠ i → (s.goTo i job).job j = s.job j := fun j => s.goTo_of_ne job
  refine { inv with alone := ?_, reading := ?_, writing := ?_, asleep := ?_ }
  · grind [fits.others, inv.alone]
  · intro a f len is
    by_cases same : a = i
    · rw [same, self] at is
      subst is
      exact fits.2
    · exact inv.reading a f len ((rest a same).symm.trans is)
  · intro a f off len is
    by_cases same : a = i
    · rw [same, self] at is
      subst is
      exact fits.2
    · exact inv.writing a f off len ((rest a same).symm.trans is)
  · intro a t c0 ms is
    by_cases same : a = i
    · rw [same, self] at is
      subst is
      exact fits
    · exact inv.asleep a t c0 ms ((rest a same).symm.trans is)

theorem done (i : Nat) (r : Int) : Inv (s.done i r) := by
  have idle : Inv (s.goTo i .none) := inv.goTo .none trivial
  exact { idle with }

theorem block {c i : Nat} {chan : Sched.Chan} (job : Job) (fits : Fits s i job) :
    Inv (s.block c i chan job) := (inv.goTo job fits).onSched _

theorem putFile (f : Nat) (x : Procfs) (size : x.ksize < MAX_PROCFS_SIZE)
    (koff : x.koff ≤ x.ksize) (uoff : x.uoff ≤ MAX_PROCFS_SIZE)
    (reading : ∀ i len, s.job i = .reading f len → x.koff + len ≤ x.ksize)
    (writing : ∀ i off len, s.job i = .writing f off len →
      x.uoff = off ∧ off + len ≤ MAX_PROCFS_SIZE) : Inv (s.putFile f x) := by
  have self := s.putFile_self f x
  have rest : ∀ g, g ≠ f → (s.putFile f x).file g = s.file g := fun g => s.putFile_of_ne x
  have every (p : Procfs → Prop) (new : p x) (old : ∀ g, p (s.file g)) (g : Nat) :
      p ((s.putFile f x).file g) := by
    by_cases same : g = f
    · rwa [same, self]
    · rw [rest g same]
      exact old g
  refine { inv with
    size := every (·.ksize < MAX_PROCFS_SIZE) size inv.size
    koff := every (fun x => x.koff ≤ x.ksize) koff inv.koff
    uoff := every (·.uoff ≤ MAX_PROCFS_SIZE) uoff inv.uoff
    reading := ?_, writing := ?_ }
  · intro i g len job
    by_cases same : g = f
    · subst same
      rw [self]
      exact reading i len job
    · rw [rest g same]
      exact inv.reading i g len job
  · intro i g off len job
    by_cases same : g = f
    · subst same
      rw [self]
      exact writing i off len job
    · rw [rest g same]
      exact inv.writing i g off len job

end

end Inv

/-! Where a call is after a step -/

variable {a : Adjust} {ms : Int} {c f i len lo n ncpu now off r : Nat} {reads : Nat → Nat} {s : State}

def Returned (s : State) (i : Nat) : Prop := s.job i = .none ∧ ∃ r, s.ret i = some r

/-- It waits for what it asked for: a semaphore that has nothing left, or the end of its
sleep. -/
def Blocked (s : State) (i : Nat) : Prop :=
  (∃ k, s.job i = .semp k ∧ (s.sem k).count = 0) ∨
    ∃ t c0 ms, s.job i = .sleep t c0 ms ∧ (s.clock : Int) < c0 + TICKPERMS * ms ∧
      (s.sched.task i).killed = false

/-- It has copied its bytes and has yet to advance the offset. -/
def Copied (s : State) (i : Nat) : Prop :=
  (∃ f len, s.job i = .reading f len) ∨ ∃ f off len, s.job i = .writing f off len

theorem done_returned (s : State) (i : Nat) (r : Int) : Returned (s.done i r) i :=
  ⟨s.goTo_self i .none, r, s.done_ret i r⟩

/-- The call goes on to a state with `Inv` and `Q`. -/
def Gives (r : Except Halt State) (Q : State → Prop) : Prop := ∃ t, r = .ok t ∧ Inv t ∧ Q t

theorem Gives.mono {r : Except Halt State} {Q R : State → Prop} (gives : Gives r Q)
    (weaker : ∀ t, Q t → R t) : Gives r R := by
  obtain ⟨t, run, inv, now⟩ := gives
  exact ⟨t, run, inv, weaker t now⟩

theorem Inv.gives_done (inv : Inv s) (i : Nat) (r : Int) :
    Gives (.ok (s.done i r)) (Returned · i) :=
  ⟨_, rfl, inv.done i r, done_returned s i r⟩

/-! Semaphores -/

theorem wrap32_of_int {x : Int} (lo : -2 ^ 31 ≤ x) (hi : x < 2 ^ 31) : wrap32 x = x := by
  unfold wrap32
  omega

theorem sysSemcreate_gives (inv : Inv s) (i : Nat) {count : Int} (lo : 0 ≤ count)
    (hi : count < 2 ^ 31) : Gives (.ok (sysSemcreate s i count)) (Returned · i) := by
  unfold sysSemcreate
  split
  · exact (inv.putSem lo hi).gives_done i _
  · exact inv.gives_done i _

theorem sysSemfree_gives (inv : Inv s) (i : Nat) (sem : Int) :
    Gives (.ok (sysSemfree s i sem)) (Returned · i) := by
  unfold sysSemfree
  split
  · exact inv.gives_done i _
  · exact (inv.putSem (Int.le_refl 0) (by decide)).gives_done i _

theorem sempTurn_gives (inv : Inv s) (c i k : Nat) :
    Gives (sempTurn s c i k) (fun t => Returned t i ∨ Blocked t i) := by
  obtain ⟨lo, hi⟩ := inv.sem k
  unfold sempTurn
  by_cases empty : (s.sem k).count = 0
  · rw [if_pos empty]
    refine ⟨_, rfl, inv.block (.semp k) trivial, .inr (.inl ⟨k, ?_, empty⟩)⟩
    exact s.goTo_self i (.semp k)
  · have wraps : wrap32 ((s.sem k).count - 1) = (s.sem k).count - 1 :=
      wrap32_of_int (by omega) (by omega)
    rw [if_neg empty, wraps, if_neg (by omega)]
    exact ((inv.putSem (by simp only; omega) (by simp only; omega)).gives_done i 0).mono
      (fun _ => .inl)

theorem sysSemp_gives (inv : Inv s) (c i : Nat) (sem : Int) :
    Gives (sysSemp s c i sem) (fun t => Returned t i ∨ Blocked t i) := by
  unfold sysSemp
  split
  · exact (inv.gives_done i _).mono (fun _ => .inl)
  · split
    · exact (inv.gives_done i _).mono (fun _ => .inl)
    · exact sempTurn_gives inv c i sem.toNat

theorem sysSemv_gives (inv : Inv s) (i : Nat) (sem : Int)
    (room : ∀ k < NSEM, sem = k → (s.sem k).count < 2 ^ 31 - 1) :
    Gives (sysSemv s i sem) (Returned · i) := by
  unfold sysSemv
  split
  · exact inv.gives_done i _
  · next inside =>
    split
    · exact inv.gives_done i _
    · obtain ⟨lo, hi⟩ := inv.sem sem.toNat
      have small := room sem.toNat (by simp only [NSEM] at *; omega) (by omega)
      have wraps : wrap32 ((s.sem sem.toNat).count + 1) = (s.sem sem.toNat).count + 1 :=
        wrap32_of_int (by omega) (by omega)
      rw [if_neg (by omega), wraps]
      exact ((inv.putSem (by simp only; omega) (by simp only; omega)).onSched _).gives_done i 0

/-! Timers -/

/-- What the loop of `adjust_sys_timer` keeps, when it was entered at `lo` or later. -/
structure Slack (lo : Nat) (a : Adjust) : Prop where
  armed : Armed a.timer
  next : lo + 10 * 1000 ≤ a.next

theorem Armed.clear {timer : Nat → Timer} (armed : Armed timer) (t : Nat) :
    Armed (Function.update timer t { timer t with handler := false }) := by
  intro u on
  by_cases same : u = t
  · rw [same, Function.update_self] at on
    cases on
  · rw [Function.update_of_ne same] at on ⊢
    exact armed u on

theorem Slack.adjustOne (slack : Slack lo a) (later : lo ≤ now)
    (t : Nat) : Slack lo (adjustOne now a t) := by
  unfold Sys.adjustOne
  split
  · next due =>
    split
    · exact ⟨slack.armed.clear t, slack.next⟩
    · next ahead =>
      have room := slack.armed t due.1
      refine ⟨slack.armed, ?_⟩
      simp only [Nat.mod_eq_of_lt room]
      omega
  · exact slack

theorem Slack.fold (later : ∀ t, lo ≤ reads (r + t)) (ts : List Nat) (slack : Slack lo a) :
    Slack lo (ts.foldl (fun a t => Sys.adjustOne (reads (r + t)) a t) a) := by
  induction ts generalizing a with
  | nil => exact slack
  | cons t ts ih => exact ih (slack.adjustOne (later t) t)

theorem adjustSysTimer_ok (mono : Monotone reads)
    (below : ∀ r, reads r < 2 ^ 63) (prompt : Prompt reads r) (armed : Armed s.timer) :
    ∃ timer sched, Armed timer ∧ adjustSysTimer s reads r =
      .ok { s with timer := timer, sched := sched, clock := reads (r + N_TIMERS) } := by
  have start : Slack (reads r) ⟨s.timer, s.sched, 2 ^ 64 - 1⟩ := by
    have := below r
    exact ⟨armed, by simp only; omega⟩
  have slack := start.fold (fun t => mono (Nat.le_add_right r t)) (List.range N_TIMERS)
  refine ⟨_, ((List.range N_TIMERS).foldl (fun a t => adjustOne (reads (r + t)) a t)
    ⟨s.timer, s.sched, 2 ^ 64 - 1⟩).sched, slack.armed, ?_⟩
  unfold adjustSysTimer
  have ahead := slack.next
  unfold Prompt at prompt
  exact if_neg (by omega)

theorem freeTimer_some (free : ∃ t < N_TIMERS, (s.timer t).handler = false) :
    ∃ t, freeTimer s = some t := by
  obtain ⟨t, small, off⟩ := free
  refine Option.isSome_iff_exists.mp (find?_isSome.mpr ⟨t, mem_range.mpr small, ?_⟩)
  rw [off]
  rfl

theorem toU64_ms (pos : 0 ≤ ms) (small : TICKPERMS * ms < 2 ^ 31) :
    toU64 (wrap32 (ms * TICKPERMS)) = (TICKPERMS * ms).toNat := by
  simp only [TICKPERMS] at small ⊢
  have swap : ms * ((1000 : Nat) : Int) = ((1000 : Nat) : Int) * ms := Int.mul_comm _ _
  rw [swap, wrap32_of_int (by omega) small]
  unfold toU64
  rw [Int.emod_eq_of_lt (by omega) (by omega)]

theorem sleepTurn_gives (inv : Inv s) {t c0 : Nat}
    (pos : 0 ≤ ms) (small : TICKPERMS * ms < 2 ^ 31) (since : c0 ≤ s.clock) (later : s.clock ≤ now)
    (below : now < 2 ^ 63) :
    Gives (.ok (sleepTurn s c i t c0 ms now)) (fun t => Returned t i ∨ Blocked t i) := by
  have elapsed : (now + 2 ^ 64 - c0) % 2 ^ 64 = now - c0 := by omega
  have clocked := inv.onClock later
  unfold sleepTurn
  rw [elapsed, toU64_ms pos small]
  by_cases early : now - c0 < (TICKPERMS * ms).toNat
  · rw [if_pos early]
    by_cases killed : (s.sched.task i).killed = true
    · rw [if_pos killed]
      exact (clocked.gives_done i _).mono (fun _ => .inl)
    · rw [if_neg killed]
      refine ⟨_, rfl, clocked.block (.sleep t c0 ms) ⟨pos, small, ?_⟩, .inr (.inr
        ⟨t, c0, ms, s.goTo_self i _, ?_, eq_false_of_ne_true killed⟩)⟩
      · exact Nat.le_trans since later
      · change (now : Int) < c0 + TICKPERMS * ms
        omega
  · rw [if_neg early]
    exact (clocked.gives_done i _).mono (fun _ => .inl)

theorem sysSleep_gives (inv : Inv s) (pos : 0 ≤ ms) (small : TICKPERMS * ms < 2 ^ 31)
    (free : ∃ t < N_TIMERS, (s.timer t).handler = false) (clock : Clocked s reads)
    (prompt : Prompt reads 2) :
    Gives (sysSleep s c i ms reads) (fun t => Returned t i ∨ Blocked t i) := by
  obtain ⟨t, found⟩ := freeTimer_some free
  have below := clock.below 1
  have delay : TICKPERMS * (ms % 2 ^ 32).toNat % 2 ^ 32 = (TICKPERMS * ms).toNat := by
    simp only [TICKPERMS] at *
    omega
  have sum : (reads 1 + (TICKPERMS * ms).toNat) % 2 ^ 64 = reads 1 + (TICKPERMS * ms).toNat := by
    omega
  have armed : Armed (Function.update s.timer t ⟨true, reads 1 + (TICKPERMS * ms).toNat⟩) := by
    intro u on
    by_cases same : u = t
    · rw [same, Function.update_self]
      simp only
      omega
    · rw [Function.update_of_ne same] at on ⊢
      exact inv.armed u on
  obtain ⟨timer, sched, armed', adjusted⟩ := adjustSysTimer_ok
    (s := { s with timer := Function.update s.timer t ⟨true, reads 1 + (TICKPERMS * ms).toNat⟩ })
    clock.mono clock.below prompt armed
  have started : ktimerStart s (ms % 2 ^ 32).toNat reads 1 =
      .ok (some t, { s with timer := timer, sched := sched, clock := reads (2 + N_TIMERS) }) := by
    unfold ktimerStart
    rw [found]
    simp only [delay, sum]
    rw [if_neg (by omega), adjusted]
  unfold sysSleep
  rw [started]
  have first : s.clock ≤ reads (2 + N_TIMERS) := Nat.le_trans clock.from_ (clock.mono (Nat.zero_le _))
  exact sleepTurn_gives (((inv.onTimer armed').onSched sched).onClock first) pos small
    (clock.mono (Nat.zero_le _)) (clock.mono (by decide)) (clock.below _)

theorem fireOne_inv (inv : Inv s) (cur t : Nat) :
    Inv (fireOne cur s t) ∧ (fireOne cur s t).clock = s.clock := by
  unfold fireOne
  split
  · exact ⟨(inv.onTimer (inv.armed.clear t)).onSched _, rfl⟩
  · exact ⟨inv, rfl⟩

theorem fire_inv (cur : Nat) (ts : List Nat) (inv : Inv s) :
    Inv (ts.foldl (fireOne cur) s) ∧ (ts.foldl (fireOne cur) s).clock = s.clock := by
  induction ts generalizing s with
  | nil => exact ⟨inv, rfl⟩
  | cons t ts ih => grind [fireOne_inv]

theorem sysTimerIrq_gives (inv : Inv s) (clock : Clocked s reads)
    (prompt : Prompt reads 1) : Gives (sysTimerIrq s reads) (fun _ => True) := by
  obtain ⟨fired, same⟩ := fire_inv (reads 0) (List.range N_TIMERS) inv
  obtain ⟨timer, sched, armed, adjusted⟩ :=
    adjustSysTimer_ok clock.mono clock.below prompt fired.armed
  unfold sysTimerIrq
  refine ⟨_, adjusted, ((fired.onTimer armed).onSched sched).onClock ?_, trivial⟩
  exact same.trans_le (Nat.le_trans clock.from_ (clock.mono (Nat.zero_le _)))

/-! procfs -/

theorem on_reading (idle : ∀ j, (s.job j).on f = false)
    (job : s.job i = .reading f len) : False := by
  have := idle i
  rw [job] at this
  simp [Job.on] at this

theorem on_writing (idle : ∀ j, (s.job j).on f = false)
    (job : s.job i = .writing f off len) : False := by
  have := idle i
  rw [job] at this
  simp [Job.on] at this

theorem procfsRead_gives (inv : Inv s) {dst : Nat} (idle : ∀ j, (s.job j).on f = false)
    (range : UserRange s i dst (min n ((s.file f).ksize - (s.file f).koff))) :
    Gives (procfsRead s i f dst n) (Copied · i) := by
  obtain ⟨tables, user, accepted⟩ := range
  have koff := inv.koff f
  have part : AcceptsRange s.vm (s.mm i) dst (((s.file f).kbuf.drop (s.file f).koff).take
      (min n ((s.file f).ksize - (s.file f).koff))).length := by
    intro a lo hi
    rw [length_take] at hi
    exact accepted a lo (by omega)
  obtain ⟨r, vm, copied, zero, -⟩ := wp_returns (Vm.copyout_full tables user part) (fun _ no => no)
  unfold procfsRead
  rw [if_neg (by omega)]
  simp only [copied, zero]
  refine ⟨_, rfl, (inv.goTo (.reading f _) ⟨fun j _ => idle j, ?_⟩).onVm vm s.mm,
    Or.inl ⟨f, _, s.goTo_self i _⟩⟩
  omega

theorem procfsWrite_gives (inv : Inv s) {src : Nat} (idle : ∀ j, (s.job j).on f = false)
    (range : UserRange s i src (min n (MAX_PROCFS_SIZE - (s.file f).uoff))) :
    Gives (procfsWrite s i f src n) (Copied · i) := by
  obtain ⟨tables, user, accepted⟩ := range
  have uoff := inv.uoff f
  have left : (MAX_PROCFS_SIZE + 2 ^ 32 - (s.file f).uoff) % 2 ^ 32 =
      MAX_PROCFS_SIZE - (s.file f).uoff := by
    simp only [MAX_PROCFS_SIZE] at *
    omega
  obtain ⟨r, vm, copied, zero, -, same⟩ :=
    wp_returns (Vm.copyin_full tables user accepted) (fun _ no => no)
  unfold procfsWrite
  simp only [left, copied, zero]
  rw [if_neg (by decide), if_neg (by omega)]
  have taken := inv.goTo (i := i) (.writing f (s.file f).uoff
    (min n (MAX_PROCFS_SIZE - (s.file f).uoff))) ⟨fun j _ => idle j, rfl, by omega⟩
  have filled := taken.putFile f { s.file f with
      ubuf := (s.file f).ubuf.take (s.file f).uoff ++ r.2.1 ++
        (s.file f).ubuf.drop ((s.file f).uoff + min n (MAX_PROCFS_SIZE - (s.file f).uoff)) }
    (inv.size f) (inv.koff f) uoff (fun j len job => taken.reading j f len job)
    (fun j off len job => taken.writing j f off len job)
  exact ⟨_, rfl, filled.onVm vm s.mm, .inr ⟨f, _, _, s.goTo_self i _⟩⟩

theorem Inv.leave {s : State} (inv : Inv s) {i f : Nat} (mine : (s.job i).on f = true) :
    ∀ j, ((s.goTo i .none).job j).on f = false := by
  intro j
  by_cases same : j = i
  · rw [same, State.goTo_self]
    rfl
  · rw [State.goTo_of_ne s .none same]
    by_contra on
    exact same (inv.alone j i f (eq_true_of_ne_false on) mine)

theorem Inv.finish (inv : Inv s) (mine : (s.job i).on f = true) (x : Procfs)
    (size : x.ksize < MAX_PROCFS_SIZE) (koff : x.koff ≤ x.ksize) (uoff : x.uoff ≤ MAX_PROCFS_SIZE)
    (r : Int) : Gives (.ok ((s.putFile f x).done i r)) (Returned · i) := by
  have idle := inv.leave mine
  have stopped : Inv (s.goTo i .none) := inv.goTo .none trivial
  have moved := stopped.putFile f x size koff uoff (fun j l is => (on_reading idle is).elim)
    (fun j o l is => (on_writing idle is).elim)
  exact ⟨_, rfl, { moved with }, done_returned _ i r⟩

theorem readEnd_gives (inv : Inv s) (job : s.job i = .reading f len) :
    Gives (.ok (readEnd s i f len)) (Returned · i) := by
  have fits := inv.reading i f len job
  have size := inv.size f
  have mine : (s.job i).on f = true := by
    rw [job]
    exact decide_eq_true rfl
  have small : ((s.file f).koff + len) % 2 ^ 32 = (s.file f).koff + len := by
    simp only [MAX_PROCFS_SIZE] at size
    omega
  exact inv.finish mine { s.file f with koff := ((s.file f).koff + len) % 2 ^ 32 } size
    (small.trans_le fits) (inv.uoff f) len

theorem writeEnd_gives (inv : Inv s) (job : s.job i = .writing f off len) :
    Gives (.ok (writeEnd s i f off len)) (Returned · i) := by
  obtain ⟨rfl, fits⟩ := inv.writing i f off len job
  have mine : (s.job i).on f = true := by
    rw [job]
    exact decide_eq_true rfl
  have small : ((s.file f).uoff + len) % 2 ^ 32 = (s.file f).uoff + len := by
    simp only [MAX_PROCFS_SIZE] at fits
    omega
  let x : Procfs := { s.file f with
    uoff := ((s.file f).uoff + len) % 2 ^ 32
    usize := if (s.file f).uoff + len > (s.file f).usize then (s.file f).uoff + len
      else (s.file f).usize }
  exact inv.finish mine x (inv.size f) (inv.koff f) (small.trans_le fits) len

/-! One step, and all of them -/

theorem kill_ok {s : Sched.State} {pid : Int}
    (used : ∀ j < NR_TASKS, pid = j → (s.task j).state ≠ .unused) :
    ∃ t, Sched.kill s pid = .ok t := by
  unfold Sched.kill
  split
  · next inside =>
    rw [if_neg (used pid.toNat (by omega) (by omega))]
    exact ⟨_, rfl⟩
  · exact ⟨_, rfl⟩

theorem call_gives (inv : Inv s) {k : Call}
    (real : Real s (.call c k reads)) (meets : MeetsCall s i reads k) :
    Gives (call s c i reads k) (fun t => Returned t i ∨ Blocked t i ∨ Copied t i) := by
  have returned : ∀ t, Returned t i → Returned t i ∨ Blocked t i ∨ Copied t i := fun _ => .inl
  have waits : ∀ t, Returned t i ∨ Blocked t i → Returned t i ∨ Blocked t i ∨ Copied t i :=
    fun _ => Or.imp_right Or.inl
  cases k with
  | kill pid =>
    obtain ⟨sched, killed⟩ := kill_ok meets
    unfold call
    simp only [killed]
    exact ((inv.onSched sched).gives_done i _).mono returned
  | semcreate count => exact (sysSemcreate_gives inv i meets real.2).mono returned
  | semfree sem => exact (sysSemfree_gives inv i sem).mono returned
  | semp sem => exact (sysSemp_gives inv c i sem).mono waits
  | semv sem => exact (sysSemv_gives inv i sem meets).mono returned
  | sleep ms =>
    obtain ⟨pos, small, free, clock, prompt⟩ := meets
    exact (sysSleep_gives inv pos small free clock prompt).mono waits
  | read f dst n =>
    simp only [call]
    split
    · exact (inv.gives_done i _).mono returned
    · next readable =>
      obtain ⟨idle, range⟩ := meets (eq_true_of_ne_false readable)
      exact (procfsRead_gives inv idle range).mono (fun _ copied => .inr (.inr copied))
  | write f src n =>
    simp only [call]
    split
    · exact (inv.gives_done i _).mono returned
    · next writable =>
      obtain ⟨idle, range⟩ := meets (eq_true_of_ne_false writable)
      exact (procfsWrite_gives inv idle range).mono (fun _ copied => .inr (.inr copied))

theorem turn_gives (inv : Inv s) (clock : Clocked s reads) :
    Gives (turn s c i reads) (fun t => s.job i ≠ .none → Returned t i ∨ Blocked t i) := by
  unfold turn
  split
  · next idle => exact ⟨s, rfl, inv, fun busy => absurd idle busy⟩
  · next k _ => exact (sempTurn_gives inv c i k).mono (fun _ now _ => now)
  · next t c0 ms job =>
    obtain ⟨pos, small, since⟩ := inv.asleep i t c0 ms job
    exact (sleepTurn_gives inv pos small since clock.from_ (clock.below 0)).mono (fun _ now _ => now)
  · next f len job => exact (readEnd_gives inv job).mono (fun _ now _ => .inl now)
  · next f off len job => exact (writeEnd_gives inv job).mono (fun _ now _ => .inl now)

def Event.own : Event → Bool
  | .sched _ => false
  | _ => true

theorem own_gives (inv : Inv s) {e : Event} (own : e.own = true)
    (real : Real s e) (meets : Meets s e) : Gives (step ncpu s e) (fun _ => True) := by
  have stutter : Gives (.ok s) (fun _ => True) := ⟨s, rfl, inv, trivial⟩
  cases e with
  | call c k reads =>
    simp only [step]
    split
    · next i running =>
      split
      · exact (call_gives inv real (meets i running)).mono (fun _ _ => trivial)
      · exact stutter
    · exact stutter
  | turn c reads =>
    simp only [step]
    split
    · split
      · exact (turn_gives inv meets).mono (fun _ _ => trivial)
      · exact stutter
    · exact stutter
  | irq reads =>
    simp only [step]
    split
    · exact sysTimerIrq_gives inv meets.1 meets.2
    · exact stutter
  | openFile f st =>
    obtain ⟨size, koff, uoff, idle⟩ := real
    refine ⟨_, rfl, inv.putFile f st size (by omega) (by omega) ?_ ?_, trivial⟩
    · intro i len job
      exact (on_reading idle job).elim
    · intro i off len job
      exact (on_writing idle job).elim
  | remap vm mm => exact ⟨_, rfl, inv.onVm vm mm, trivial⟩
  | sched e => cases own

/-- The tables are zero at first, and no task is in a call. -/
structure Boot (s : State) : Prop where
  sched : Sched.Boot s.sched
  sem : ∀ k, s.sem k = ⟨false, 0⟩
  timer : ∀ t, (s.timer t).handler = false
  file : ∀ f, (s.file f).ksize = 0 ∧ (s.file f).koff = 0 ∧ (s.file f).uoff = 0
  job : ∀ i, s.job i = .none

theorem Boot.inv (boot : Boot s) : Inv s where
  sem k := by
    rw [boot.sem k]
    decide
  armed t on := by
    rw [boot.timer t] at on
    cases on
  size f := by
    rw [(boot.file f).1]
    decide
  koff f := by
    rw [(boot.file f).2.1]
    exact Nat.zero_le _
  uoff f := by
    rw [(boot.file f).2.2]
    exact Nat.zero_le _
  alone i j f on := by
    rw [boot.job i] at on
    cases on
  reading i f len job := by
    rw [boot.job i] at job
    cases job
  writing i f off len job := by
    rw [boot.job i] at job
    cases job
  asleep i t c0 ms job := by
    rw [boot.job i] at job
    cases job

def Step (ncpu : Nat) (s t : State) : Prop :=
  ∃ e : Event, e.core < ncpu ∧ Real s e ∧ Meets s e ∧ step ncpu s e = .ok t

theorem Inv.step {t : State} (inv : Inv s) (next : Step ncpu s t) : Inv t := by
  obtain ⟨e, -, real, meets, run⟩ := next
  cases own : e.own with
  | true => grind [Gives, Sys.step, own_gives]
  | false =>
    cases e with
    | sched e => grind [inv.onSched, Sys.step]
    | _ => cases own

theorem reach_inv (reached : Reach Boot (Step ncpu) s) : Inv s :=
  Reach.invariant Inv (fun _ boot => boot.inv) (fun _ _ inv next => inv.step next) reached

/-- In a run whose steps meet the conditions no call halts. A call that has been taken up
returns, or waits for a semaphore or the end of its sleep, or has copied its bytes; from
there, every further step of the task brings it back or finds it still waiting. -/
theorem calls_come_back {ncpu : Nat} {s : State} (reached : Reach Boot (Step ncpu) s) :
    (∀ e : Event, e.own = true → Real s e → Meets s e → ∃ t, step ncpu s e = .ok t) ∧
    (∀ c i k reads t, current s c = some i → s.job i = .none →
      (k.locks = false ∨ s.sched.lock = none) → Real s (.call c k reads) →
      Meets s (.call c k reads) → step ncpu s (.call c k reads) = .ok t →
      Returned t i ∨ Blocked t i ∨ Copied t i) ∧
    (∀ c i reads t, current s c = some i → s.job i ≠ .none →
      ((s.job i).locks = false ∨ s.sched.lock = none) → Meets s (.turn c reads) →
      step ncpu s (.turn c reads) = .ok t → Returned t i ∨ Blocked t i) := by
  have inv := reach_inv reached
  refine ⟨?_, ?_, ?_⟩
  · intro e own real meets
    have runs : Gives (step ncpu s e) (fun _ => True) := own_gives inv own real meets
    obtain ⟨t, run, -⟩ := runs
    exact ⟨t, run⟩
  · intro c i k reads t running idle free real meets run
    obtain ⟨u, gives, -, now⟩ := call_gives inv real (meets i running)
    simp only [step, running, if_pos (And.intro idle free), gives] at run
    cases run
    exact now
  · intro c i reads t running busy free clock run
    have runs : Gives (turn s c i reads) (fun t => s.job i ≠ .none → Returned t i ∨ Blocked t i) :=
      turn_gives inv clock
    obtain ⟨u, gives, -, now⟩ := runs
    simp only [step, running, if_pos free, gives] at run
    cases run
    exact now busy

def bootState : State where
  sched := Sched.bootState
  sem _ := ⟨false, 0⟩
  timer _ := ⟨false, 0⟩
  clock := 0
  file _ := ⟨false, false, [], 0, 0, [], 0, 0⟩
  vm := Vm.execSpace
  mm _ := 0
  job _ := .none
  ret _ := none

theorem bootState_boot : Boot bootState :=
  ⟨Sched.bootState_boot, fun _ => rfl, fun _ => rfl, fun _ => ⟨rfl, rfl, rfl⟩, fun _ => rfl⟩

def initRuns : List Event := Sched.initRuns.map .sched

def initRunning : State := Prog.played (step 2) bootState initRuns

theorem initRunning_creates : current initRunning 0 = some 0 ∧
      ∃ t, step 2 initRunning (.call 0 (.semcreate 1) (fun _ => 0)) = .ok t ∧
        (Returned t 0 ∨ Blocked t 0 ∨ Copied t 0) := by
  have scheduling : ∀ s e t, (∃ x : Sched.Event, x.core < 2 ∧ e = .sched x) →
      step 2 s e = .ok t → Step 2 s t := by
    rintro s _ t ⟨x, small, rfl⟩ run
    exact ⟨.sched x, small, trivial, trivial, run⟩
  have reached : Reach Boot (Step 2) initRunning := by
    refine Reach.play scheduling initRuns (.start bootState_boot) ?_ rfl
    intro e he
    obtain ⟨x, hx, rfl⟩ := mem_map.mp he
    have cores : ∀ x ∈ Sched.initRuns, x.core < 2 := by decide
    exact ⟨x, cores x hx, rfl⟩
  have running : current initRunning 0 = some 0 := rfl
  have real : Real initRunning (.call 0 (.semcreate 1) (fun _ => 0)) := ⟨by decide, by decide⟩
  have meets : Meets initRunning (.call 0 (.semcreate 1) (fun _ => 0)) := by
    intro i _
    exact Int.one_nonneg
  obtain ⟨none_halts, returns, -⟩ := calls_come_back reached
  obtain ⟨t, run⟩ := none_halts (.call 0 (.semcreate 1) (fun _ => 0)) rfl real meets
  exact ⟨running, t, run, returns 0 0 _ _ t running rfl (.inl rfl) real meets run⟩

def oneByte : Procfs := ⟨true, false, [0x41], 1, 0, [], 0, 0⟩

/- From init: kill of a number that no task has, P on a semaphore that was created with a
negative count, and a read to a pointer behind the user's addresses. -/
theorem initRunning_halts : Boot bootState ∧
    Prog.play (step 2) bootState (initRuns ++ [.call 0 (.kill 5) (fun _ => 0)]) = .error .bug ∧
    Prog.play (step 2) bootState (initRuns ++
      [.call 0 (.semcreate (-1)) (fun _ => 0), .call 0 (.semp 0) (fun _ => 0)]) = .error .bug ∧
    Prog.play (step 2) bootState (initRuns ++
      [.openFile 0 oneByte, .call 0 (.read 0 (USER_VA_END + 1) 1) (fun _ => 0)]) = .error .bug :=
  ⟨bootState_boot, rfl, rfl, rfl⟩

end UvaOs.Sys
