import PmcBench.Quiescence
import PmcBench.Sampling
import PmcBench.Schedules
import PmcBench.Workers

/-!
# The lazy set-up of the shared array

`sa_flag` is tested, set, and only then is the array allocated and filled. The
history of a run says how far that set-up is. As long as every test of the flag
falls outside a set-up, the array is published once and complete before anything
is measured on it; two threads whose set-ups overlap break that.
-/

namespace PmcBench
open Threads
open Program (forEach)

variable {b : Build} {hw : Pmu} {cpus : List Cpu} {func : Nat → Benchmark} {iterations : Nat → Nat}

/-- How far the set-up is, and which worker is at it. -/
inductive SetUp where
  | untouched
  /-- The worker has found the flag clear. -/
  | cleared (i : Nat)
  /-- It has set the flag. -/
  | flagged (i : Nat)
  /-- It has published the array and stored the first `k` elements. -/
  | filling (i k : Nat)
  deriving DecidableEq

namespace SetUp

/-- Worker `i` is in the middle of the set-up. -/
def Busy (n : Nat) (i : Nat) : SetUp → Prop
  | untouched => False
  | cleared j | flagged j => j = i
  | filling j k => j = i ∧ k < n

def Done (n : Nat) : SetUp → Prop
  | filling _ k => n ≤ k
  | _ => False

instance (n : Nat) : (st : SetUp) → Decidable (st.Done n)
  | filling _ k => inferInstanceAs (Decidable (n ≤ k))
  | untouched | cleared _ | flagged _ => inferInstanceAs (Decidable False)

/-- Nobody is in the middle of the set-up. -/
def Idle (n : Nat) (st : SetUp) : Prop := st = untouched ∨ st.Done n

instance (n : Nat) (st : SetUp) : Decidable (st.Idle n) := inferInstanceAs (Decidable (_ ∨ _))

def flag : SetUp → Bool
  | untouched | cleared _ => false
  | _ => true

/-- How many elements are stored, once the array is published. -/
def stored : SetUp → Option Nat
  | filling _ k => some k
  | _ => none

/-- The set-up after an action of worker `i`. -/
def act (n : Nat) (i : Nat) (st : SetUp) : (o : Action) → o.Res → SetUp
  | .testFlag, r => if r = false then cleared i else st
  | .setFlag, _ => flagged i
  | .mallocShared _, _ => filling i 0
  | .storeShared .., _ =>
    match st with
    | filling j k => if j = i ∧ k < n then filling j (k + 1) else st
    | _ => st
  | _, _ => st

def step (n : Nat) (st : SetUp) : Ev hw → SetUp
  | .act (.worker i) o r => st.act n i o r
  | _ => st

theorem done_of_stored {n k : Nat} {st : SetUp} (stored : st.stored = some k) (done : st.Done n) : n ≤ k := by
  cases st with
  | filling j l =>
    obtain rfl := Option.some.inj stored
    exact done
  | _ => cases stored

theorem not_busy_of_done {n i : Nat} {st : SetUp} (done : st.Done n) : ¬ st.Busy n i := by
  cases st with
  | filling j k =>
    intro busy
    have done : n ≤ k := done
    have := busy.2
    omega
  | _ => exact done.elim

theorem idle_iff {n : Nat} {st : SetUp} : st.Idle n ↔ ∀ i, ¬ st.Busy n i := by
  constructor
  · rintro (rfl | done) i
    · exact id
    · exact not_busy_of_done done
  · intro idle
    cases st with
    | untouched => exact Or.inl rfl
    | cleared i => exact (idle i rfl).elim
    | flagged i => exact (idle i rfl).elim
    | filling i k =>
      apply Or.inr
      by_contra more
      exact idle i ⟨rfl, Nat.lt_of_not_le more⟩

theorem flag_of_done {n : Nat} {st : SetUp} (done : st.Done n) : st.flag = true := by
  cases st with
  | filling j k => rfl
  | _ => exact done.elim

end SetUp

def setUp (n : Nat) (tr : List (Ev hw)) : SetUp := tr.foldl (SetUp.step n) .untouched

@[simp] theorem setUp_snoc (n : Nat) (tr : List (Ev hw)) (e : Ev hw) : setUp n (tr ++ [e]) = (setUp n tr).step n e := by
  simp [setUp]

/-! ### Which tests of the flag are harmless -/

/-- Worker 1 measures something after waiting for worker 0. -/
def Awaited (func : Nat → Benchmark) (iterations : Nat → Nat) : Prop :=
  (func 1).gated = true ∧ (func 1).samples (iterations 1) ≠ 0

/-- A worker that may find the flag set during another's set-up: it waits for worker 0
before it measures, or it measures nothing and lets nobody measure. -/
def Exempt (func : Nat → Benchmark) (iterations : Nat → Nat) (i : Nat) : Prop :=
  (i = 1 ∧ (func i).gated = true) ∨
    ((func i).samples (iterations i) = 0 ∧ ¬ (i = 0 ∧ Awaited func iterations))

/-- The flag is tested while no set-up is under way, or it is set and an exempt worker tests it. -/
def SettledTest (b : Build) (func : Nat → Benchmark) (iterations : Nat → Nat) (tr : List (Ev hw)) (s : World) :
    Ev hw → Prop
  | .act (.worker i) .testFlag _ =>
    (setUp b.n tr).Idle b.n ∨ s.saFlag = true ∧ Exempt func iterations i
  | _ => True

/-! ### The invariant of a run -/

def publishes : Ev hw → Bool
  | .act _ (.mallocShared _) _ => true
  | _ => false

/-- A load of `shared_array[j]` returned `j`. -/
def LoadsIndex : Ev hw → Prop
  | .act _ (.loadShared j) v => v = BitVec.ofNat 64 j
  | _ => True

/-- The memory of the process as the set-up and main leave it. -/
structure Shared (b : Build) (cpus : List Cpu) (func : Nat → Benchmark) (iterations : Nat → Nat) (st : SetUp)
    (s : World) : Prop where
  flag : s.saFlag = st.flag
  absent : st.stored = none → s.sharedArray = none
  present : ∀ k, st.stored = some k → ∃ buf, s.sharedArray = some buf ∧ ∀ j < k, buf.cell j = some (BitVec.ofNat 64 j)
  canRun : s.canRun = true → st.Done b.n ∨ ¬ Awaited func iterations
  created : s.Created cpus iterations

namespace Shared
variable {st : SetUp} {s t : World}

theorem same (held : Shared b cpus func iterations st s) (shared : s.SharedSame t)
    (created : t.Created cpus iterations) : Shared b cpus func iterations st t := by
  obtain ⟨flag, canRun, array⟩ := shared
  constructor
  · rw [flag, held.flag]
  · rw [array]; exact held.absent
  · rw [array]; exact held.present
  · rw [canRun]; exact held.canRun
  · exact created

theorem complete (held : Shared b cpus func iterations st s) (done : st.Done b.n) :
    ∃ buf, s.sharedArray = some buf ∧ ∀ j < b.n, buf.cell j = some (BitVec.ofNat 64 j) := by
  cases stored : st.stored with
  | none =>
    cases st with
    | filling j k => cases stored
    | _ => exact done.elim
  | some k =>
    obtain ⟨buf, array, cells⟩ := held.present k stored
    have all := SetUp.done_of_stored stored done
    exact ⟨buf, array, fun j bound => cells j (by omega)⟩

end Shared

/-! ### What one worker does, and what it is told -/

/-- What the answer to an action tells worker `i`. -/
def Told (b : Build) (cpus : List Cpu) (func : Nat → Benchmark) (iterations : Nat → Nat) (i : Nat) (st : SetUp) :
    (o : Action) → o.Res → Prop
  | .threadStart, args => i < cpus.length ∧ args = ⟨iterations i, i, cpus.getD i 0⟩
  | .testFlag, r => r = true → st.Done b.n ∨ Exempt func iterations i
  | .waitCanRun, _ => st.Done b.n ∨ ¬ Awaited func iterations
  | _, _ => True

/-- Worker `i` sets the flag and fills the array in its own set-up only, and uses the
array only when it is complete. -/
def Careful (b : Build) (func : Nat → Benchmark) (iterations : Nat → Nat) (i : Nat) (st : SetUp) : Action → Prop
  | .setFlag => st = .cleared i
  | .mallocShared _ => st = .flagged i
  | .storeShared j v => v = BitVec.ofNat 64 j ∧ j < b.n ∧ (st = .filling i j ∨ st.Done b.n)
  | .loadShared j => j < b.n ∧ st.Done b.n
  | .point .measured => st.Done b.n
  | .setCanRun => st.Done b.n ∨ ¬ Awaited func iterations
  | _ => True

section
variable {tr : List (Ev hw)} {s s' : World} {i : Nat} {o : Action} {r : o.Res}

theorem SetUp.act_done {n : Nat} {st : SetUp} (done : st.Done n) (notTest : o ≠ .testFlag) (notSet : o ≠ .setFlag)
    (notMalloc : ∀ m, o ≠ .mallocShared m) : st.act n i o r = st := by
  cases o with
  | testFlag => exact (notTest rfl).elim
  | setFlag => exact (notSet rfl).elim
  | mallocShared m => exact (notMalloc m rfl).elim
  | storeShared j v =>
    cases st with
    | filling j k =>
      have done : n ≤ k := done
      exact if_neg (by omega)
    | _ => rfl
  | _ => rfl

/-- A worker does not touch a set-up that another is at, nor a complete one. -/
theorem Shared.others_still (held : Shared b cpus func iterations (setUp b.n tr) s)
    (careful : Careful b func iterations i (setUp b.n tr) o)
    (settled : SettledTest b func iterations tr s (.act (.worker i) o r)) (step : s.actWorker b i o r s') {j : Nat}
    (other : j ≠ i) (kept : (setUp b.n tr).Busy b.n j ∨ (setUp b.n tr).Done b.n) :
    (setUp b.n tr).act b.n i o r = setUp b.n tr := by
  have owner {st : SetUp} (same : setUp b.n tr = st) (busy : ∀ k, st.Busy b.n k → k = i) (undone : ¬ st.Done b.n) :
      (setUp b.n tr).act b.n i o r = setUp b.n tr := by
    rw [same] at kept
    rcases kept with by_ | done
    · exact (other (busy j by_)).elim
    · exact (undone done).elim
  cases o with
  | testFlag =>
    obtain ⟨t, l, ⟨read, -⟩, -⟩ := step
    have clear : r = (setUp b.n tr).flag := read.trans held.flag
    cases r with
    | true => rfl
    | false =>
      rcases settled with idle | ⟨set, -⟩
      · rcases kept with busy | done
        · exact (SetUp.idle_iff.mp idle j busy).elim
        · rw [SetUp.flag_of_done done] at clear
          cases clear
      · rw [held.flag, ← clear] at set
        cases set
  | setFlag => exact owner careful (fun k busy => busy.symm) id
  | mallocShared m => exact owner careful (fun k busy => busy.symm) id
  | storeShared k v =>
    obtain ⟨-, bound, mine | done⟩ := careful
    · exact owner mine (fun k busy => busy.1.symm) (fun done => Nat.not_lt_of_le done bound)
    · exact SetUp.act_done done nofun nofun nofun
  | _ => rfl

theorem Shared.told (held : Shared b cpus func iterations (setUp b.n tr) s)
    (settled : SettledTest b func iterations tr s (.act (.worker i) o r)) (step : s.actWorker b i o r s') :
    Told b cpus func iterations i (setUp b.n tr) o r := by
  obtain ⟨t, l, shared, -⟩ := step
  cases o with
  | threadStart =>
    obtain ⟨started, rfl, -⟩ := shared
    exact held.created i started
  | testFlag =>
    obtain ⟨rfl, -⟩ := shared
    intro set
    rcases settled with idle | ⟨-, exempt⟩
    · rcases idle with untouched | done
      · rw [held.flag, untouched] at set
        cases set
      · exact Or.inl done
    · exact Or.inr exempt
  | waitCanRun => exact held.canRun shared.1
  | _ => trivial

theorem Shared.loads (held : Shared b cpus func iterations (setUp b.n tr) s)
    (careful : Careful b func iterations i (setUp b.n tr) o) (step : s.actWorker b i o r s') :
    LoadsIndex (.act (.worker i) o r : Ev hw) := by
  obtain ⟨t, l, shared, -⟩ := step
  cases o with
  | loadShared j =>
    obtain ⟨bound, done⟩ := careful
    obtain ⟨buf, array, cells⟩ := held.complete done
    obtain ⟨buf', array', value, -⟩ := shared
    obtain rfl : buf' = buf := Option.some.inj (array'.symm.trans array)
    exact value _ (cells j bound)
  | _ => trivial

/-- What a careful worker's action makes of the shared memory. -/
theorem Shared.worker (held : Shared b cpus func iterations (setUp b.n tr) s)
    (careful : Careful b func iterations i (setUp b.n tr) o) (step : s.actWorker b i o r s') :
    Shared b cpus func iterations ((setUp b.n tr).act b.n i o r) s' := by
  have created := held.created.worker step
  by_cases other : World.writesShared o = false
  · have same := World.actWorker_shared other step
    cases o with
    | testFlag =>
      obtain ⟨t, l, ⟨read, -⟩, -⟩ := step
      cases r with
      | true => exact held.same same created
      | false =>
        obtain ⟨flag, canRun, array⟩ := same
        have clear : (setUp b.n tr).flag = false := held.flag.symm.trans read.symm
        have absent : (setUp b.n tr).stored = none := by
          cases st : setUp b.n tr with
          | untouched | cleared k => rfl
          | flagged k | filling k m => rw [st] at clear; cases clear
        have undone : ¬ (setUp b.n tr).Done b.n := fun done => by
          rw [SetUp.flag_of_done done] at clear
          cases clear
        constructor
        · rw [flag, held.flag, clear]; rfl
        · rw [array]; exact fun _ => held.absent absent
        · exact nofun
        · rw [canRun]; exact fun run => Or.inr ((held.canRun run).resolve_left undone)
        · exact created
    | setFlag | mallocShared m | storeShared j v => cases other
    | _ => exact held.same same created
  · obtain ⟨t, l, shared, -, rfl⟩ := step
    cases o with
    | setFlag =>
      obtain rfl := shared
      have mine : setUp b.n tr = .cleared i := careful
      rw [mine] at held
      exact ⟨rfl, fun _ => held.absent rfl, nofun, fun run => Or.inr ((held.canRun run).resolve_left id), created⟩
    | setCanRun =>
      obtain rfl := shared
      exact ⟨held.flag, held.absent, held.present, fun _ => careful, created⟩
    | mallocShared m =>
      obtain rfl := shared
      have mine : setUp b.n tr = .flagged i := careful
      rw [mine] at held
      refine ⟨held.flag, nofun, ?_, fun run => Or.inr ((held.canRun run).resolve_left id), created⟩
      intro k stored
      obtain rfl := Option.some.inj stored
      exact ⟨_, rfl, fun j bound => by omega⟩
    | storeShared j v =>
      obtain ⟨buf, array, rfl⟩ := shared
      obtain ⟨rfl, bound, place⟩ := careful
      have cells {k : Nat} (stored : (setUp b.n tr).stored = some k) {x : Nat} (below : x < k ∨ x = j) :
          (buf.write j (BitVec.ofNat 64 j)).cell x = some (BitVec.ofNat 64 x) := by
        obtain ⟨buf', array', cells⟩ := held.present k stored
        obtain rfl : buf' = buf := Option.some.inj (array'.symm.trans array)
        by_cases here : x = j
        · subst here
          exact Function.update_self ..
        · exact (Function.update_of_ne here ..).trans (cells x (below.resolve_right here))
      rcases place with mine | done
      · have stored : (setUp b.n tr).stored = some j := by rw [mine]; rfl
        have next : (setUp b.n tr).act b.n i (.storeShared j (BitVec.ofNat 64 j)) r = .filling i (j + 1) := by
          rw [mine]
          exact if_pos ⟨rfl, bound⟩
        rw [next]
        refine ⟨?_, nofun, ?_, fun run => ?_, created⟩
        · exact held.flag.trans (by rw [mine]; rfl)
        · intro k here
          obtain rfl := Option.some.inj here
          exact ⟨_, rfl, fun x below => cells stored (by omega)⟩
        · refine Or.inr ((held.canRun run).resolve_left fun done => ?_)
          have done := SetUp.done_of_stored stored done
          omega
      · rw [SetUp.act_done (o := .storeShared ..) done nofun nofun nofun]
        refine ⟨held.flag, fun none => ?_, fun k stored => ?_, held.canRun, created⟩
        · exact absurd array (by rw [held.absent none]; nofun)
        · exact ⟨_, rfl, fun x below => cells stored (Or.inl below)⟩
    | _ => exact (other rfl).elim

/-- How often the array has been published, by how far the set-up is. -/
def SetUp.publications (st : SetUp) : Nat := if st.stored.isSome then 1 else 0

theorem Shared.publications (held : Shared b cpus func iterations (setUp b.n tr) s)
    (careful : Careful b func iterations i (setUp b.n tr) o) (step : s.actWorker b i o r s') :
    ((setUp b.n tr).act b.n i o r).publications =
      (setUp b.n tr).publications + if publishes (.act (.worker i) o r : Ev hw) then 1 else 0 := by
  cases o with
  | testFlag =>
    obtain ⟨t, l, ⟨read, -⟩, -⟩ := step
    cases r with
    | true => rfl
    | false =>
      have clear : (setUp b.n tr).flag = false := held.flag.symm.trans read.symm
      cases st : setUp b.n tr with
      | untouched | cleared k => rfl
      | flagged k | filling k m => rw [st] at clear; cases clear
  | setFlag =>
    have mine : setUp b.n tr = .cleared i := careful
    rw [mine]
    rfl
  | mallocShared m =>
    have mine : setUp b.n tr = .flagged i := careful
    rw [mine]
    rfl
  | storeShared j v =>
    cases st : setUp b.n tr with
    | filling k m =>
      by_cases more : k = i ∧ m < b.n <;> simp [SetUp.act, more, SetUp.publications, SetUp.stored, publishes]
    | _ => rfl
  | _ => rfl

end

/-! ### The run -/

/-- A worker sees how far the set-up is. Others do not touch a set-up it is at, nor a
complete one. -/
abbrev setUpView (b : Build) (cpus : List Cpu) (func : Nat → Benchmark) (iterations : Nat → Nat) (i : Nat) :
    View Action Action.Res where
  St := SetUp
  rely st st' := st.Busy b.n i ∨ st.Done b.n → st' = st
  allow := Careful b func iterations i
  next st o r st' := Told b cpus func iterations i st o r ∧ st' = st.act b.n i o r

def setUpGuarantee (b : Build) (hw : Pmu) (cpus : List Cpu) (func : Nat → Benchmark) (iterations : Nat → Nat) :
    RelyGuarantee (process b hw) (SettledTest b func iterations) where
  view
    | .main => spawnView cpus iterations
    | .worker i => setUpView b cpus func iterations i
  abs
    | .main, _, _ => ()
    | .worker _, tr, _ => setUp b.n tr
  inv tr s := Shared b cpus func iterations (setUp b.n tr) s ∧ tr.countP publishes = (setUp b.n tr).publications ∧
    ∀ e ∈ tr, LoadsIndex e
  own {t tr s o r s'} held allowed ok step := by
    cases t with
    | main => rfl
    | worker i => exact ⟨held.1.told ok step, setUp_snoc ..⟩
  others {t u tr s o r s'} different held allowed ok step := by
    cases u with
    | main => exact .refl
    | worker j =>
      cases t with
      | main =>
        show Relation.ReflTransGen _ (setUp b.n tr) (setUp b.n (tr ++ [_]))
        rw [setUp_snoc]
        exact .refl
      | worker i =>
        refine .single fun kept => ?_
        show setUp b.n (tr ++ [_]) = setUp b.n tr
        rw [setUp_snoc]
        have other : j ≠ i := fun same => different (by rw [same])
        exact held.1.others_still allowed ok step other kept
  moves {u tr s e s'} held ok step := by
    cases u with
    | main => exact .refl
    | worker j =>
      show Relation.ReflTransGen _ (setUp b.n tr) (setUp b.n (tr ++ [_]))
      rw [setUp_snoc]
      exact .refl
  inv_act {t tr s o r s'} held allowed ok step := by
    obtain ⟨shared, once, loads⟩ := held
    rw [setUp_snoc, List.countP_append, List.countP_singleton, once]
    cases t with
    | main =>
      have silent : publishes (.act .main o r : Ev hw) = false ∧ LoadsIndex (.act .main o r : Ev hw) := by
        cases o
        case mallocShared | loadShared => exact (show False from step).elim
        all_goals exact ⟨rfl, trivial⟩
      refine ⟨shared.same (World.actMain_shared step) (shared.created.main allowed step), ?_, ?_⟩
      · rw [silent.1]
        rfl
      · intro e member
        rcases List.mem_append.mp member with earlier | last
        · exact loads e earlier
        · rw [List.mem_singleton.mp last]
          exact silent.2
    | worker i =>
      refine ⟨shared.worker allowed step, (shared.publications allowed step).symm, ?_⟩
      intro e member
      rcases List.mem_append.mp member with earlier | last
      · exact loads e earlier
      · rw [List.mem_singleton.mp last]
        exact shared.loads allowed step
  inv_env {tr s e s'} held ok step := by
    obtain ⟨shared, once, loads⟩ := held
    rw [setUp_snoc, List.countP_append, List.countP_singleton, once]
    refine ⟨shared.same (World.move_shared step) (shared.created.move step), rfl, ?_⟩
    intro e' member
    rcases List.mem_append.mp member with earlier | last
    · exact loads e' earlier
    · rw [List.mem_singleton.mp last]
      trivial

/-! ### The benchmarks in a worker's view -/

/-- Actions that find the array complete and leave it so. -/
def UsesComplete (n : Nat) : Action → Prop
  | .testFlag | .setFlag | .mallocShared _ => False
  | .storeShared j v => j < n ∧ v = BitVec.ofNat 64 j
  | .loadShared j => j < n
  | _ => True

section
variable {i : Nat} {args : ThreadArgs} {st : SetUp}

theorem uses_of_sampling (o : Action) (own : o.ofSampling = true) : UsesComplete b.n o := by
  cases o
  case testFlag | setFlag | mallocShared | storeShared | loadShared => cases own
  all_goals trivial

theorem uses_timedSample {measured : Prog Unit} (uses : measured.All (UsesComplete b.n)) :
    (timedSample b args measured).All (UsesComplete b.n) :=
  all_timedSample uses_of_sampling trivial trivial uses

theorem uses_readShared {last : Nat} (bound : last ≤ b.n) : (readShared last).All (UsesComplete b.n) := by
  refine ⟨trivial, fun _ => .forEach fun _ member => ?_⟩
  have below := List.mem_range.mp member
  exact ⟨Nat.lt_of_lt_of_le below bound, fun _ => trivial⟩

theorem uses_writeShared : (writeShared b.n (BitVec.ofNat 64)).All (UsesComplete b.n) :=
  ⟨trivial, fun _ => .forEach fun _ member => ⟨⟨List.mem_range.mp member, rfl⟩, fun _ => trivial⟩⟩

theorem uses_timedLoop {last k : Nat} (bound : last ≤ b.n) :
    (samplingLoop k fun _ => timedSample b args (readShared last)).All (UsesComplete b.n) :=
  all_samplingLoop uses_of_sampling fun _ _ => uses_timedSample (uses_readShared bound)

namespace SetUp
open Relation

/-- Nothing disturbs a worker in its own set-up, nor a complete array. -/
theorem still {t : SetUp} (moved : ReflTransGen (setUpView b cpus func iterations i).rely st t)
    (kept : st.Busy b.n i ∨ st.Done b.n) : t = st := by
  induction moved with
  | refl => rfl
  | tail _ step ih =>
    subst ih
    exact step kept

theorem preserves_done {o : Action} (uses : UsesComplete b.n o) :
    (setUpView b cpus func iterations i).Preserves (Done b.n) o := by
  intro st done
  refine ⟨?_, fun r t next => ?_⟩
  · cases o with
    | storeShared j v => exact ⟨uses.2, uses.1, Or.inr done⟩
    | loadShared j => exact ⟨uses, done⟩
    | point p =>
      cases p with
      | measured => exact done
      | _ => trivial
    | setCanRun => exact Or.inl done
    | setFlag | mallocShared => exact uses.elim
    | _ => trivial
  · obtain ⟨-, rfl⟩ := next
    have same : st.act b.n i o r = st := by
      apply act_done done
      · rintro rfl; exact uses
      · rintro rfl; exact uses
      · rintro m rfl; exact uses
    rw [same]
    exact done

theorem wp_complete {α : Type} {p : Prog α} (uses : p.All (UsesComplete b.n)) (done : st.Done b.n) :
    p.wp (setUpView b cpus func iterations i) (fun _ => Done b.n) st := by
  apply Program.wp_of_preserves _ (uses.mono fun _ => preserves_done) done
  intro t u done moved
  rw [show u = t from moved (Or.inr done)]
  exact done

/-- The block `if (sa_flag == false)` leaves a complete array, or an exempt worker. -/
theorem wp_setUpSharedArray : (setUpSharedArray b).wp (setUpView b cpus func iterations i)
    (fun _ st => st.Done b.n ∨ Exempt func iterations i) st := by
  intro t moved
  refine ⟨trivial, fun saFlag u ⟨told, now⟩ => ?_⟩
  cases saFlag with
  | true =>
    rcases told rfl with done | exempt
    · intro v moved
      have same : u = t := now
      rw [same] at moved
      rw [still moved (Or.inr done)]
      exact Or.inl done
    · exact fun _ _ => Or.inr exempt
  | false =>
    have mine : u = cleared i := now
    subst mine
    intro v moved
    obtain rfl := still moved (Or.inl rfl)
    refine ⟨rfl, fun _ v ⟨_, now⟩ => ?_⟩
    subst now
    intro v moved
    obtain rfl := still moved (Or.inl rfl)
    refine ⟨rfl, fun _ v ⟨_, now⟩ => ?_⟩
    subst now
    refine Program.wp_forEach_range (I := fun k st => k ≤ b.n ∧ st = filling i k) ⟨Nat.zero_le _, rfl⟩ ?_ ?_ ?_
    · rintro k t u ⟨le, rfl⟩ moved
      refine ⟨le, moved ?_⟩
      rcases Nat.lt_or_ge k b.n with more | all
      · exact Or.inl ⟨rfl, more⟩
      · exact Or.inr all
    · rintro k t more ⟨-, rfl⟩ u moved
      obtain rfl := still moved (Or.inl ⟨rfl, more⟩)
      refine ⟨⟨rfl, more, Or.inl rfl⟩, fun _ w ⟨_, now⟩ => ?_⟩
      have next : w = filling i (k + 1) := now.trans (if_pos ⟨rfl, more⟩)
      subst next
      intro v moved
      refine ⟨more, still moved ?_⟩
      rcases Nat.lt_or_ge (k + 1) b.n with more | all
      · exact Or.inl ⟨rfl, more⟩
      · exact Or.inr all
    · rintro t ⟨-, rfl⟩
      exact Or.inl (Nat.le_refl _)

theorem wp_anyhow {α : Type} {p : Prog α} (fine : p.All fun o => ∀ st, Careful b func iterations i st o) :
    p.wp (setUpView b cpus func iterations i) (fun _ _ => True) st :=
  Program.wp_allowed fine

theorem anyhow_mallocStores {size : Nat} : (mallocStores size).All fun o => ∀ st, Careful b func iterations i st o :=
  all_mallocStores (fun _ _ => trivial) (fun _ _ => trivial) size

theorem wp_afterSetUp {size : Nat} {p : Prog Unit} {Q : Unit → SetUp → Prop}
    (rest : ∀ t : SetUp, t.Done b.n ∨ Exempt func iterations i → p.wp (setUpView b cpus func iterations i) Q t) : (do
      mallocStores size
      setUpSharedArray b
      p : Prog Unit).wp (setUpView b cpus func iterations i) Q st := by
  apply Program.wp_seq (wp_anyhow anyhow_mallocStores)
  intro _ t _
  apply Program.wp_seq wp_setUpSharedArray
  intro _ t here
  exact rest t here

/-- After waiting for worker 0 the array is complete, or the worker measures nothing. -/
theorem wp_waitForThread0 (id : args.id = i) (gated : (func i).gated = true)
    (settled : st.Done b.n ∨ Exempt func iterations i) :
    (waitForThread0 args).wp (setUpView b cpus func iterations i)
      (fun _ st => st.Done b.n ∨ (func i).samples (iterations i) = 0 ∧ ¬ (i = 0 ∧ Awaited func iterations)) st := by
  have stays {t u : SetUp} (moved : ReflTransGen (setUpView b cpus func iterations i).rely t u)
      (done : t.Done b.n) : u.Done b.n := by
    rw [still moved (Or.inr done)]
    exact done
  unfold waitForThread0
  split
  · rename_i one
    intro t moved
    refine ⟨trivial, fun _ u ⟨told, now⟩ v moved => ?_⟩
    have same : u = t := now
    rw [same] at moved
    rcases told with done | idle
    · exact Or.inl (stays moved done)
    · have first : i = 1 := id.symm.trans one
      subst first
      refine Or.inr ⟨?_, nofun⟩
      by_contra some
      exact idle ⟨gated, some⟩
  · rename_i notOne
    intro t moved
    rcases settled with done | ⟨one, -⟩ | idle
    · exact Or.inl (stays moved done)
    · exact (notOne (id.trans one)).elim
    · exact Or.inr idle

theorem wp_body (id : args.id = i) (iter : args.iterations = iterations i) (timed : (func i).timed = true) :
    ((func i).body b args).wp (setUpView b cpus func iterations i) (fun _ _ => True) st := by
  have run : (letThread1Run args).All (UsesComplete b.n) := by
    unfold letThread1Run
    split
    · exact ⟨trivial, fun _ => trivial⟩
    · trivial
  have done {p : Prog Unit} (uses : p.All (UsesComplete b.n)) {t : SetUp} (complete : t.Done b.n) :
      p.wp (setUpView b cpus func iterations i) (fun _ _ => True) t :=
    Program.wp_mono (wp_complete uses complete) fun _ _ _ => trivial
  have loop (k : Nat) : (samplingLoop k fun _ => timedSample b args (readShared b.n)).All (UsesComplete b.n) :=
    uses_timedLoop (Nat.le_refl _)
  have write : (timedSample b args (writeShared b.n (BitVec.ofNat 64))).All (UsesComplete b.n) :=
    uses_timedSample uses_writeShared
  -- A worker that does not wait for worker 0 and measures is not exempt.
  have settled {t : SetUp} (here : t.Done b.n ∨ Exempt func iterations i) (free : (func i).gated = false)
      (some : (func i).samples (iterations i) ≠ 0) : t.Done b.n := by
    rcases here with done | ⟨-, gated⟩ | ⟨none, -⟩
    · exact done
    · rw [free] at gated
      cases gated
    · exact (some none).elim
  cases kind : func i with
  | bmSingleDArrayMultithreadedT1 =>
    apply wp_afterSetUp
    intro t here
    apply Program.wp_seq (wp_waitForThread0 id (by rw [kind]; rfl) here)
    intro _ t here
    rcases here with complete | ⟨none, quiet⟩
    · exact done ((uses_timedLoop (Nat.mod_le ..)).bind fun _ => run) complete
    · rw [kind] at none
      have zero : args.iterations = 0 := iter.trans none
      rw [zero]
      apply wp_anyhow
      refine ⟨fun _ => trivial, fun _ => ?_⟩
      show (letThread1Run args).All _
      unfold letThread1Run
      split
      · rename_i isZero
        exact ⟨fun _ => Or.inr fun awaited => quiet ⟨id.symm.trans isZero, awaited⟩, fun _ => trivial⟩
      · trivial
  | bmSingleDArrayMultithreadedT2 =>
    apply wp_afterSetUp
    intro t here
    apply Program.wp_seq (wp_waitForThread0 id (by rw [kind]; rfl) here)
    intro _ t here
    rcases here with complete | ⟨none, -⟩
    · exact done ((loop _).bind fun _ => write.bind fun _ => (loop _).bind fun _ => run) complete
    · rw [kind] at none
      have some : iterations i / 2 + 1 + iterations i / 2 = 0 := none
      omega
  | bmSingleDArrayMultithreadedT3 =>
    apply wp_afterSetUp
    intro t here
    have complete := settled here (by rw [kind]; rfl) (by rw [kind]; nofun)
    exact done ((loop _).bind fun _ => write) complete
  | bmSingleDArrayMultithreadedT4 =>
    apply wp_afterSetUp
    intro t here
    have complete := settled here (by rw [kind]; rfl) (by rw [kind]; nofun)
    exact done (write.bind fun _ => loop _) complete
  | _ => rw [kind] at timed; cases timed

theorem wp_worker (timed : i < cpus.length → (func i).timed = true) :
    (worker b (func i)).wp (setUpView b cpus func iterations i) (fun _ _ => True) st := by
  intro t moved
  refine ⟨trivial, fun args u ⟨told, _⟩ => ?_⟩
  obtain ⟨bound, rfl⟩ := told
  show ((func i).body b _ >>= fun _ => perform .threadExit).wp _ _ u
  refine Program.wp_seq (wp_body rfl rfl (timed bound)) fun _ v _ => ?_
  exact wp_anyhow ⟨fun _ => trivial, fun _ => trivial⟩

end SetUp

end

/-! ### Safety, and how it fails -/

/-- The array is complete where a measured loop starts, it is published at most once, and
every load of `shared_array[j]` returns `j`. -/
structure ArraySafe (b : Build) (tr : List (Ev hw)) (c : Config Tid Action Action.Res World) : Prop where
  complete : ∀ i next, c.pool (.worker i) = .act (.point .measured) next →
    ∃ buf, c.state.sharedArray = some buf ∧ ∀ j < b.n, buf.cell j = some (BitVec.ofNat 64 j)
  once : tr.countP publishes ≤ 1
  loads : ∀ i j v, Event.act (.worker i) (.loadShared j) v ∈ tr → v = BitVec.ofNat 64 j

/-- As long as every test of `sa_flag` falls outside a set-up, the shared array is safe to use. -/
theorem setUp_safe (timed : ∀ i < cpus.length, (func i).timed = true) {s : World} (initial : s.Initial)
    {tr : List (Ev hw)} {c : Config Tid Action Action.Res World}
    (run : (process b hw).Run (SettledTest b func iterations) ⟨s, pool b cpus func iterations⟩ tr c) :
    ArraySafe b tr c := by
  have start : Shared b cpus func iterations .untouched s := by
    refine ⟨initial.saFlag, fun _ => initial.sharedArray, nofun, fun run => ?_, initial.created⟩
    rw [initial.canRun] at run
    cases run
  have proved := (setUpGuarantee b hw cpus func iterations).run (fun _ _ _ => True) run ⟨start, rfl, nofun⟩ fun t => by
    cases t with
    | main => exact main_spawns b cpus iterations
    | worker i => exact SetUp.wp_worker (timed i)
  obtain ⟨⟨shared, once, loads⟩, threads⟩ := proved
  refine ⟨fun i next here => ?_, ?_, fun i j v member => loads _ member⟩
  · have turn := threads (.worker i)
    rw [here] at turn
    exact shared.complete (Program.wp_now turn).1
  · rw [once, SetUp.publications]
    split <;> decide

/-- Tells of a configuration whether worker `i` starts a measured loop. -/
def measures (i : Nat) (c : Config Tid Action Action.Res World) : Bool :=
  match c.pool (.worker i) with
  | .act (.point .measured) _ => true
  | _ => false

theorem exists_of_measures {i : Nat} {c : Config Tid Action Action.Res World} (h : measures i c = true) :
    ∃ next, c.pool (.worker i) = .act (.point .measured) next := by
  unfold measures at h
  split at h
  · rename_i next here
    exact ⟨next, here⟩
  · cases h

/-- Tells of a test of `sa_flag` whether it happens outside a set-up. -/
def testsIdle (b : Build) (tr : List (Ev hw)) (_ : World) : Ev hw → Bool
  | .act (.worker _) .testFlag _ => decide ((setUp b.n tr).Idle b.n)
  | _ => true

theorem SettledTest.of_check (tr : List (Ev hw)) (s : World) (e : Ev hw) (fine : testsIdle b tr s e = true) :
    SettledTest b func iterations tr s e := by
  cases e with
  | env e => trivial
  | act t o r =>
    cases t with
    | main => trivial
    | worker i =>
      cases o with
      | testFlag => exact Or.inl (of_decide_eq_true fine)
      | _ => trivial

/-- Worker 0 sets the array up before worker 1 starts, and worker 1 measures on it. -/
theorem setUp_safe_inTurn : ∃ (tr : List (Ev .exact)) (c : Config Tid Action Action.Res World),
    (process oneElement .exact).Run
      (SettledTest oneElement (fun _ => .bmSingleDArrayMultithreadedT3) fun _ => 10)
      ⟨.idle, pool oneElement [1, 2] (fun _ => .bmSingleDArrayMultithreadedT3) fun _ => 10⟩ tr c ∧
      (∃ next, c.pool (.worker 1) = .act (.point .measured) next) ∧ ArraySafe oneElement tr c := by
  have played : (playFrom oneElement .exact (testsIdle oneElement) [1, 2] (fun _ => .bmSingleDArrayMultithreadedT3)
      (fun _ => 10) .idle (List.replicate 103 (.inl .main) ++ List.replicate 7 (.inl (.worker 0)) ++
        List.replicate 16 (.inl (.worker 1)))).any (fun x => measures 1 x.2) = true := by decide +kernel
  obtain ⟨⟨tr, c⟩, found, here⟩ := (Option.any_eq_true ..).mp played
  have run : (process oneElement .exact).Run
      (SettledTest oneElement (fun _ => .bmSingleDArrayMultithreadedT3) fun _ => 10)
      ⟨.idle, pool oneElement [1, 2] (fun _ => .bmSingleDArrayMultithreadedT3) fun _ => 10⟩ tr c :=
    (player oneElement .exact).play_run SettledTest.of_check .start found
  exact ⟨tr, c, run, exists_of_measures here, setUp_safe (fun _ _ => rfl) World.idle_initial run⟩

/-- Worker 1 finds the flag set by worker 0 and measures before there is an array. -/
theorem setUp_race : ∃ (tr : List (Ev .exact)) (c : Config Tid Action Action.Res World),
    (process dedos07 .exact).Run (fun _ _ _ => True)
      ⟨.idle, pool dedos07 [1, 2] (fun _ => .bmSingleDArrayMultithreadedT3) fun _ => 10⟩ tr c ∧
      ¬ ArraySafe dedos07 tr c := by
  have played : (playFrom dedos07 .exact (fun _ _ _ => true) [1, 2] (fun _ => .bmSingleDArrayMultithreadedT3)
      (fun _ => 10) .idle (List.replicate 102 (.inl .main) ++ List.replicate 5 (.inl (.worker 0)) ++
        List.replicate 16 (.inl (.worker 1)))).any (fun x => measures 1 x.2 && x.2.state.sharedArray.isNone) = true := by
    decide +kernel
  obtain ⟨⟨tr, c⟩, found, here⟩ := (Option.any_eq_true ..).mp played
  rw [Bool.and_eq_true] at here
  obtain ⟨measuring, null⟩ := here
  refine ⟨tr, c, (player dedos07 .exact).play_run (fun _ _ _ _ => trivial) .start found, fun safe => ?_⟩
  obtain ⟨next, here⟩ := exists_of_measures measuring
  obtain ⟨buf, array, -⟩ := safe.complete 1 next here
  rw [array] at null
  cases null

end PmcBench
