import EvmFlow.Compiler
import EvmFlow.Proofs.Calls
import EvmFlow.Proofs.PassSuccess
import EvmFlow.Proofs.Services

/-!
# The cache of the compiler

While a list is compiled, two jobs can miss the same code and both build it, and a third can push
one of the programs out again. Whatever the order of the moves, what the compiler delivers are the
programs of the codes.

* `Compiler.Call`, `Compiler.serve`: the calls of a compiler;
* `Compiler.Follows`: what every call keeps, of any services;
* `Compiler.Policy`: a property of cached handles that every new handle has, with step lemmas for
  look-up, insertion, jobs, schedules and calls of lawful services (`Compiler.Obeys`);
* `Compiler.compileAll_refused`: no list is compiled where the pool is closed;
* `Compiler.Transparent`: what the calls of a compiler promise after a history;
* **`Compiler.run_transparent`**: they promise it after every history.
-/

namespace EvmFlow

open BoundedMap (lastStored)

/-- A program of a code, made without a cache. -/
def Program.IsMade (optimized : Bool) (code : List UInt8) (q : Program) : Prop :=
  ∃ p, build (decode code) = .ok p ∧ if optimized then p.optimize = (q, .ok ()) else q = p

namespace Compiler

variable {s : Services} {c c' c'' : Compiler s} {code : List UInt8} {codes : List (List UInt8)}
  {q : Program}

theorem isMade_of_build (h : c.build code = .ok q) : q.IsMade c.settings.optimize code := by
  obtain ⟨p, hp, h⟩ := bind_eq_ok.mp h
  refine ⟨p, mapError_eq_ok.mp (mapError_eq_ok.mp hp), ?_⟩
  split at h
  · next hoptimize =>
    obtain ⟨⟨⟩, hresult, h⟩ := bind_eq_ok.mp h
    rw [if_pos hoptimize]
    exact Prod.ext (Except.ok.inj h) (mapError_eq_ok.mp hresult)
  · next hoptimize =>
    rw [if_neg hoptimize]
    exact (Except.ok.inj h).symm

/-- No code fails to have a program. -/
theorem exists_build (c : Compiler s) (code : List UInt8) : ∃ q, c.build code = .ok q := by
  obtain ⟨p, hp, hruns⟩ := Program.exists_steps_runAll (decode code)
  have hbuild : Program.ofInstrs? (decode code) = .ok p := mapError_eq_ok.mpr hp
  obtain ⟨q, hq, -⟩ := hruns [.deadCode, .lift, .deadCode] (by simp)
  have hq : p.optimize = (q, .ok ()) := hq
  unfold build
  rw [hbuild]
  by_cases hoptimize : c.settings.optimize
  · exact ⟨q, by simp only [Except.mapError, bind, Except.bind, hoptimize, hq]; rfl⟩
  · exact ⟨p, by simp only [Except.mapError, bind, Except.bind, hoptimize]; rfl⟩

/-! ## Calls -/

/-- The calls of a compiler, with a schedule for the jobs of a list. -/
inductive Call where
  | compile (code : List UInt8)
  | compileAll (codes : List (List UInt8)) (schedule : List Move)
  | forget (code : List UInt8)
  | release

/-- Whether a call compiles a code. -/
def Call.Compiles (code : List UInt8) : Call → Prop
  | .compile code' => code = code'
  | .compileAll codes _ => code ∈ codes
  | _ => False

/-- What a call answers. -/
inductive Answer (s : Services) where
  | program (result : Except (CompileError s) Nat)
  | programs (result : Except (ContractError s) (List Nat))
  | done

/-- One call. -/
def serve (c : Compiler s) : Call → Answer s × Compiler s
  | .compile code => (.program (c.compile code).2, (c.compile code).1)
  | .compileAll codes schedule =>
    (.programs (c.compileAll schedule codes).2, (c.compileAll schedule codes).1)
  | .forget code => (.done, c.forget code)
  | .release => (.done, c.release)

/-! ## Growth -/

/-- `c'` comes after `c`: the settings are the same and no program is lost. -/
structure Follows (c c' : Compiler s) : Prop where
  settings : c'.settings = c.settings
  programs : ∀ {h : Nat} {q : Program}, c.programs[h]? = some q → c'.programs[h]? = some q
  size : c.programs.size ≤ c'.programs.size

theorem Follows.refl (c : Compiler s) : c.Follows c := ⟨rfl, id, Nat.le_refl _⟩

theorem Follows.trans (h : c.Follows c') (h' : c'.Follows c'') : c.Follows c'' where
  settings := h'.settings.trans h.settings
  programs hq := h'.programs (h.programs hq)
  size := Nat.le_trans h.size h'.size

theorem follows_find (c : Compiler s) (code : List UInt8) : c.Follows (c.find code).2 :=
  ⟨rfl, id, Nat.le_refl _⟩

theorem follows_add (c : Compiler s) (code : List UInt8) (q : Program) :
    c.Follows (c.add code q).2 where
  settings := rfl
  programs {h p} hp := by
    have hlt := (Array.getElem?_eq_some_iff.mp hp).1
    exact (Array.getElem?_push_lt hlt).trans (Array.getElem?_eq_getElem hlt ▸ hp)
  size := Nat.le_trans (Nat.le_succ _) (Nat.le_of_eq (Array.size_push _).symm)

theorem follows_supply (c : Compiler s) (code : List UInt8) : c.Follows (c.supply code).1 := by
  unfold supply
  split
  · exact c.follows_add code _
  · exact .refl c

theorem follows_compile (c : Compiler s) (code : List UInt8) : c.Follows (c.compile code).1 := by
  have hfind := c.follows_find code
  unfold compile
  split
  · next heq =>
    rw [heq] at hfind
    exact hfind
  · next heq =>
    rw [heq] at hfind
    exact hfind.trans (follows_supply _ code)

theorem follows_advance (c : Compiler s) (job : Job s) : c.Follows (c.advance job).1 := by
  have hfind := c.follows_find job.code
  unfold advance
  split
  · split
    · next heq =>
      rw [heq] at hfind
      exact hfind
    · next heq =>
      rw [heq] at hfind
      exact hfind
  · exact c.follows_supply job.code
  · exact .refl c

theorem follows_complete (c : Compiler s) (job : Job s) : c.Follows (c.complete job).1 := by
  unfold complete
  split
  · exact c.follows_compile job.code
  · exact c.follows_supply job.code
  · exact .refl c

theorem follows_submit (c : Compiler s) (b : Batch s) : c.Follows (c.submit b).1 := by
  unfold submit
  split
  · exact .refl c
  · split <;> exact ⟨rfl, id, Nat.le_refl _⟩

theorem follows_step (c : Compiler s) (b : Batch s) (i : Nat) : c.Follows (c.step b i).1 := by
  unfold step
  split
  · exact c.follows_advance _
  · exact .refl c

theorem follows_move (x : Compiler s × Batch s) (m : Move) : x.1.Follows (move x m).1 := by
  cases m with
  | submit => exact x.1.follows_submit x.2
  | step i => exact x.1.follows_step x.2 i

theorem follows_foldl_move (x : Compiler s × Batch s) (schedule : List Move) :
    x.1.Follows (schedule.foldl move x).1 := by
  induction schedule generalizing x with
  | nil => exact .refl _
  | cons m schedule ih => exact (follows_move x m).trans (ih _)

theorem follows_completeAll (c : Compiler s) (jobs : List (Job s)) :
    c.Follows (c.completeAll jobs).1 := by
  induction jobs generalizing c with
  | nil => exact .refl c
  | cons job jobs ih => exact (c.follows_complete job).trans (ih _)

theorem follows_compileAll (c : Compiler s) (schedule : List Move) (codes : List (List UInt8)) :
    c.Follows (c.compileAll schedule codes).1 :=
  (follows_foldl_move (c, { pending := codes }) _).trans (follows_completeAll _ _)

theorem follows_serve (c : Compiler s) (call : Call) : c.Follows (c.serve call).2 := by
  cases call with
  | compile code => exact c.follows_compile code
  | compileAll codes schedule => exact c.follows_compileAll schedule codes
  | forget code => exact ⟨rfl, id, Nat.le_refl _⟩
  | release => exact ⟨rfl, id, Nat.le_refl _⟩

theorem follows_run (c : Compiler s) (calls : List Call) :
    c.Follows (Calls.run serve c calls).2 :=
  Calls.run_keeps (fun c' call h => h.trans (c'.follows_serve call)) (.refl c) calls

/-! ## Policies -/

section Policy

variable {used : Set (List UInt8)} {c₀ : Compiler s} {P : Compiler s → List UInt8 → Nat → Prop}
  {Q : List UInt8 → Prop} {closed : Prop}

/-- A property of the handles of codes that lasts, and that is had by every handle given after `c₀`
to a code in question. -/
structure Policy (used : Set (List UInt8)) (c₀ : Compiler s)
    (P : Compiler s → List UInt8 → Nat → Prop) (Q : List UInt8 → Prop) : Prop where
  used : ∀ {code}, Q code → code ∈ used
  lasts : ∀ {c c' : Compiler s} {code h}, c.Follows c' → P c code h → P c' code h
  fresh : ∀ {c : Compiler s} {code q}, c₀.Follows c → Q code → c.build code = .ok q →
    P (c.add code q).2 code c.programs.size

/-- The cache and the pool are what operations have made of new ones. The handles last stored for
codes in use have a property, and the pool was released or not. -/
structure Obeys (used : Set (List UInt8)) (c₀ : Compiler s)
    (P : Compiler s → List UInt8 → Nat → Prop) (closed : Prop) (c : Compiler s) : Prop where
  follows : c₀.Follows c
  room : 0 < c.settings.cacheSize
  cache : ∃ ops, c.cache = s.map.after c.settings.cacheSize ops ∧
    ∀ code ∈ used, ∀ h, lastStored (s.hash code) ops = some h → P c code h
  pool : ∃ p ops, s.workers.new c.settings.workers = .ok p ∧ c.pool = s.workers.after p ops ∧
    (WorkerPool.Op.release ∈ ops ↔ closed)

/-- A job has not failed, and if it is over its handle has a property. -/
structure Sound (P : Compiler s → List UInt8 → Nat → Prop) (Q : List UInt8 → Prop) (c : Compiler s)
    (job : Job s) : Prop where
  code : Q job.code
  result : ∀ {r}, job.stage = .finished r → ∃ h, r = .ok h ∧ P c job.code h

/-- The jobs of a list under a policy. -/
structure Underway (used : Set (List UInt8)) (c₀ : Compiler s)
    (P : Compiler s → List UInt8 → Nat → Prop) (Q : List UInt8 → Prop) (closed : Prop)
    (codes : List (List UInt8)) (x : Compiler s × Batch s) : Prop where
  obeys : Obeys used c₀ P closed x.1
  codes : x.2.jobs.map Job.code ++ x.2.pending = codes
  sound : ∀ job ∈ x.2.jobs, Sound P Q x.1 job
  accepted : ¬ closed ∨ x.2.pending = []

theorem Sound.follows {job : Job s} (h : Sound P Q c job) (hP : Policy used c₀ P Q)
    (hc : c.Follows c') : Sound P Q c' job := by
  refine ⟨h.code, fun hr => ?_⟩
  obtain ⟨handle, hok, hhandle⟩ := h.result hr
  exact ⟨handle, hok, hP.lasts hc hhandle⟩

namespace Obeys

theorem congr {closed' : Prop} (hc : Obeys used c₀ P closed c) (h : closed ↔ closed') :
    Obeys used c₀ P closed' c := propext h ▸ hc

theorem accepts (hc : Obeys used c₀ P closed c) (hs : s.Lawful used) (hopen : ¬ closed) :
    (s.workers.submit c.pool).1 = .ok () := by
  obtain ⟨p, ops, hnew, hpool, hclosed⟩ := hc.pool
  rw [hpool]
  exact hs.workers.submit_of_open hnew (mt hclosed.mp hopen)

theorem refuses (hc : Obeys used c₀ P closed c) (hs : s.Lawful used) (hclosed : closed) :
    ∃ e, (s.workers.submit c.pool).1 = .error e ∧ s.workers.isClosed e = true := by
  obtain ⟨p, ops, hnew, hpool, hiff⟩ := hc.pool
  rw [hpool]
  exact hs.workers.submit_of_released hnew (hiff.mpr hclosed)

theorem cached_le (hc : Obeys used c₀ P closed c) (hs : s.Lawful used) :
    (c.cached : Int) ≤ c.settings.cacheSize := by
  obtain ⟨ops, hcache, -⟩ := hc.cache
  rw [cached, hcache]
  exact hs.map.size_le hc.room ops

/-- One operation on the pool. -/
theorem poolOp (hc : Obeys used c₀ P closed c) (hP : Policy used c₀ P Q) (op : WorkerPool.Op) :
    Obeys used c₀ P (closed ∨ op = .release) { c with pool := s.workers.apply c.pool op } := by
  have hfollows : c.Follows { c with pool := s.workers.apply c.pool op } := ⟨rfl, id, Nat.le_refl _⟩
  obtain ⟨p, ops, hnew, hpool, hclosed⟩ := hc.pool
  obtain ⟨mapOps, hcache, hstored⟩ := hc.cache
  refine ⟨hc.follows.trans hfollows, hc.room,
    ⟨mapOps, hcache, fun code hcode h hh => hP.lasts hfollows (hstored code hcode h hh)⟩,
    p, op :: ops, hnew, congrArg (s.workers.apply · op) hpool, ?_⟩
  rw [List.mem_cons, hclosed, eq_comm, or_comm]

/-- One operation on the cache, where what is stored after it was stored before or has the
property. -/
theorem cacheOp (hc : Obeys used c₀ P closed c) (hP : Policy used c₀ P Q) (hfollows : c.Follows c')
    (op : BoundedMap.Op s.Hash Nat) (hcache : c'.cache = s.map.apply c.cache op)
    (hpool : c'.pool = c.pool)
    (hop : ∀ ops, ∀ code ∈ used, ∀ h, lastStored (s.hash code) (op :: ops) = some h →
      lastStored (s.hash code) ops = some h ∨ P c' code h) :
    Obeys used c₀ P closed c' := by
  obtain ⟨ops, hops, hstored⟩ := hc.cache
  refine ⟨hc.follows.trans hfollows, hfollows.settings ▸ hc.room, ⟨op :: ops, ?_, ?_⟩, ?_⟩
  · rw [hcache, hops, hfollows.settings]
    rfl
  · intro code hcode h hh
    rcases hop ops code hcode h hh with hold | hnew
    · exact hP.lasts hfollows (hstored code hcode h hold)
    · exact hnew
  · rw [hfollows.settings, hpool]
    exact hc.pool

theorem forget (hc : Obeys used c₀ P closed c) (hP : Policy used c₀ P Q) (code : List UInt8) :
    Obeys used c₀ P closed (c.forget code) := by
  refine hc.cacheOp hP ⟨rfl, id, Nat.le_refl _⟩ (.remove (s.hash code)) rfl rfl ?_
  intro ops code' _ h hh
  rw [lastStored] at hh
  split at hh
  · cases hh
  · exact .inl hh

end Obeys

namespace Policy

variable (hP : Policy used c₀ P Q) (hs : s.Lawful used)
include hP hs

/-- A look-up finds a handle with the property, or nothing. -/
theorem find (hc : Obeys used c₀ P closed c) (hcode : code ∈ used) :
    (∃ c' h, c.find code = (some h, c') ∧ Obeys used c₀ P closed c' ∧ P c' code h) ∨
      ∃ c', c.find code = (none, c') ∧ Obeys used c₀ P closed c' := by
  have hobeys : Obeys used c₀ P closed (c.find code).2 :=
    hc.cacheOp hP (c.follows_find code) (.get (s.hash code)) rfl rfl fun _ _ _ _ hh => .inl hh
  cases hfound : (c.find code).1 with
  | none => exact .inr ⟨_, Prod.ext hfound rfl, hobeys⟩
  | some h =>
    obtain ⟨ops, hcache, hstored⟩ := hc.cache
    have hget : (s.map.get c.cache (s.hash code)).1 = some h := hfound
    rw [hcache] at hget
    have hlast := hs.map.lastStored_of_get hc.room hget
    exact .inl ⟨_, h, Prod.ext hfound rfl, hobeys,
      hP.lasts (c.follows_find code) (hstored code hcode h hlast)⟩

theorem add (hc : Obeys used c₀ P closed c) (hcode : Q code) (hq : c.build code = .ok q) :
    Obeys used c₀ P closed (c.add code q).2 := by
  refine hc.cacheOp hP (c.follows_add code q) (.add (s.hash code) c.programs.size) rfl rfl ?_
  intro ops code' hcode' h hh
  rw [lastStored] at hh
  split at hh
  · next heq =>
    -- The key is the one stored just now, so the code is.
    obtain rfl := hs.hash (hP.used hcode) hcode' heq
    obtain rfl := Option.some.inj hh
    exact .inr (hP.fresh hc.follows hcode hq)
  · exact .inl hh

theorem supply (hc : Obeys used c₀ P closed c) (hcode : Q code) :
    ∃ c' h, c.supply code = (c', .ok h) ∧ Obeys used c₀ P closed c' ∧ P c' code h := by
  obtain ⟨q, hq⟩ := c.exists_build code
  refine ⟨_, _, ?_, hP.add hs hc hcode hq, hP.fresh hc.follows hcode hq⟩
  rw [Compiler.supply, hq]
  rfl

theorem compile (hc : Obeys used c₀ P closed c) (hcode : Q code) :
    ∃ c' h, c.compile code = (c', .ok h) ∧ Obeys used c₀ P closed c' ∧ P c' code h := by
  unfold Compiler.compile
  rcases hP.find hs hc (hP.used hcode) with ⟨c', h, heq, hc', hh⟩ | ⟨c', heq, hc'⟩
  · rw [heq]
    exact ⟨c', h, rfl, hc', hh⟩
  · rw [heq]
    exact hP.supply hs hc' hcode

/-- **One step of a job.** -/
theorem advance (hc : Obeys used c₀ P closed c) {job : Job s} (hj : Sound P Q c job) :
    Obeys used c₀ P closed (c.advance job).1 ∧ Sound P Q (c.advance job).1 (c.advance job).2 ∧
      (c.advance job).2.code = job.code := by
  obtain ⟨code, stage⟩ := job
  cases stage with
  | waiting =>
    rcases hP.find hs hc (hP.used hj.code) with ⟨c', h, heq, hc', hh⟩ | ⟨c', heq, hc'⟩
    · simp only [Compiler.advance, heq]
      refine ⟨hc', ⟨hj.code, ?_⟩, trivial⟩
      rintro _ ⟨⟩
      exact ⟨h, rfl, hh⟩
    · simp only [Compiler.advance, heq]
      exact ⟨hc', ⟨hj.code, nofun⟩, trivial⟩
  | missed =>
    obtain ⟨c', h, heq, hobeys, hh⟩ := hP.supply hs hc hj.code
    simp only [Compiler.advance, heq]
    refine ⟨hobeys, ⟨hj.code, ?_⟩, trivial⟩
    rintro _ ⟨⟩
    exact ⟨h, rfl, hh⟩
  | finished r => exact ⟨hc, hj, rfl⟩

/-- **What is left of a job.** -/
theorem complete (hc : Obeys used c₀ P closed c) {job : Job s} (hj : Sound P Q c job) :
    ∃ c' h, c.complete job = (c', .ok h) ∧ Obeys used c₀ P closed c' ∧ P c' job.code h := by
  obtain ⟨code, stage⟩ := job
  cases stage with
  | waiting => exact hP.compile hs hc hj.code
  | missed => exact hP.supply hs hc hj.code
  | finished r =>
    obtain ⟨h, rfl, hh⟩ := hj.result rfl
    exact ⟨c, h, rfl, hc, hh⟩

theorem completeAll (hc : Obeys used c₀ P closed c) {jobs : List (Job s)}
    (hjobs : ∀ job ∈ jobs, Sound P Q c job) :
    ∃ c' handles, c.completeAll jobs = (c', handles.map Except.ok) ∧ Obeys used c₀ P closed c' ∧
      List.Forall₂ (P c') (jobs.map Job.code) handles := by
  induction jobs generalizing c with
  | nil => exact ⟨c, [], rfl, hc, .nil⟩
  | cons job jobs ih =>
    obtain ⟨hjob, hjobs⟩ := List.forall_mem_cons.mp hjobs
    obtain ⟨c₁, h, heq, hc₁, hh⟩ := hP.complete hs hc hjob
    have hfollows := c.follows_complete job
    rw [heq] at hfollows
    obtain ⟨c₂, handles, heq', hc₂, hall⟩ :=
      ih hc₁ fun job hmem => (hjobs job hmem).follows hP hfollows
    have hfollows' := c₁.follows_completeAll jobs
    rw [heq'] at hfollows'
    refine ⟨c₂, h :: handles, ?_, hc₂, .cons (hP.lasts hfollows' hh) hall⟩
    rw [Compiler.completeAll, heq]
    dsimp only
    rw [heq']
    rfl

theorem submit (hcodes : ∀ code ∈ codes, Q code) {b : Batch s}
    (hb : Underway used c₀ P Q closed codes (c, b)) :
    Underway used c₀ P Q closed codes (c.submit b) := by
  obtain ⟨pending, jobs⟩ := b
  cases pending with
  | nil => exact hb
  | cons code rest =>
    have hopen : ¬ closed := hb.accepted.resolve_right (List.cons_ne_nil code rest)
    have haccepts : s.workers.submit c.pool = (.ok (), (s.workers.submit c.pool).2) :=
      Prod.ext (hb.obeys.accepts hs hopen) rfl
    have hlists : jobs.map Job.code ++ code :: rest = codes := hb.codes
    unfold Compiler.submit
    dsimp only
    rw [haccepts]
    refine ⟨(hb.obeys.poolOp hP .submit).congr (by simp), ?_, fun job hmem => ?_, .inl hopen⟩
    · rw [← hlists]
      simp
    · rcases List.mem_append.mp hmem with hold | hnew
      · exact (hb.sound job hold).follows hP ⟨rfl, id, Nat.le_refl _⟩
      · obtain rfl := List.mem_singleton.mp hnew
        exact ⟨hcodes code (hlists ▸ List.mem_append_right _ List.mem_cons_self), nofun⟩

theorem step {b : Batch s} (hb : Underway used c₀ P Q closed codes (c, b)) (i : Nat) :
    Underway used c₀ P Q closed codes (c.step b i) := by
  have hfollows := c.follows_step b i
  unfold Compiler.step at hfollows ⊢
  cases hi : b.jobs[i]? with
  | none => exact hb
  | some job =>
    rw [hi] at hfollows
    obtain ⟨hobeys, hsound, hcode⟩ :=
      hP.advance hs hb.obeys (hb.sound job (List.mem_of_getElem? hi))
    refine ⟨hobeys, ?_, fun job' hmem => ?_, hb.accepted⟩
    · have hself : b.jobs.set i job = b.jobs := by
        obtain ⟨-, rfl⟩ := List.getElem?_eq_some_iff.mp hi
        exact List.set_getElem_self _
      dsimp only
      rw [List.map_set, hcode, ← List.map_set, hself]
      exact hb.codes
    · rcases List.mem_or_eq_of_mem_set hmem with hold | rfl
      · exact (hb.sound job' hold).follows hP hfollows
      · exact hsound

/-- **One move.** -/
theorem move (hcodes : ∀ code ∈ codes, Q code) {x : Compiler s × Batch s}
    (hx : Underway used c₀ P Q closed codes x) (m : Move) :
    Underway used c₀ P Q closed codes (Compiler.move x m) := by
  cases m with
  | submit => exact hP.submit hs hcodes hx
  | step i => exact hP.step hs hx i

/-- **A schedule.** -/
theorem work (hc : Obeys used c₀ P closed c) (hcodes : ∀ code ∈ codes, Q code)
    (hopen : ¬ closed ∨ codes = []) (schedule : List Move) :
    Underway used c₀ P Q closed codes (c.work codes schedule) := by
  have hstart : Underway used c₀ P Q closed codes (c, { pending := codes }) :=
    ⟨hc, rfl, fun _ hmem => absurd hmem List.not_mem_nil, hopen⟩
  unfold Compiler.work
  generalize (c, ({ pending := codes } : Batch s)) = x at hstart
  induction schedule generalizing x with
  | nil => exact hstart
  | cons m schedule ih => exact ih _ (hP.move hs hcodes hstart m)

end Policy

/-! ## Lists -/

theorem length_pending_move (x : Compiler s × Batch s) (m : Move) :
    (move x m).2.pending.length ≤ x.2.pending.length - if m = .submit then 1 else 0 := by
  cases m with
  | submit =>
    rw [if_pos rfl, move]
    unfold submit
    cases hpending : x.2.pending with
    | nil => simp [hpending]
    | cons code rest =>
      dsimp only
      split <;> simp
  | step i =>
    rw [if_neg Move.noConfusion, Nat.sub_zero, move]
    unfold step
    split <;> exact Nat.le_refl _

theorem length_pending_foldl_move (x : Compiler s × Batch s) (schedule : List Move) :
    (schedule.foldl move x).2.pending.length ≤ x.2.pending.length - schedule.count .submit := by
  induction schedule generalizing x with
  | nil => exact Nat.le_refl _
  | cons m schedule ih =>
    have hstep := length_pending_move x m
    have hrest := ih (move x m)
    rw [List.foldl_cons, List.count_cons]
    simp only [beq_iff_eq]
    omega

/-- When every code had its turn, none is left to be submitted. -/
theorem pending_work (c : Compiler s) (codes : List (List UInt8)) (schedule : List Move) :
    (c.work codes (schedule ++ List.replicate codes.length .submit)).2.pending = [] := by
  have hle := length_pending_foldl_move (c, ({ pending := codes } : Batch s))
    (schedule ++ List.replicate codes.length .submit)
  rw [List.count_append, List.count_replicate_self] at hle
  exact List.eq_nil_of_length_eq_zero (by simpa [work] using hle)

theorem collect_map_ok (i : Nat) (handles : List Nat) :
    collect (s := s) i (handles.map Except.ok) = .ok handles := by
  induction handles generalizing i with
  | nil => rfl
  | cons handle handles ih =>
    rw [List.map_cons, collect, ih]
    rfl

/-- A list is compiled whatever the schedule, and its handles obey the policy. -/
theorem Policy.compileAll (hP : Policy used c₀ P Q) (hs : s.Lawful used)
    (hc : Obeys used c₀ P closed c) (hcodes : ∀ code ∈ codes, Q code)
    (hopen : ¬ closed ∨ codes = []) (schedule : List Move) :
    ∃ c' handles, c.compileAll schedule codes = (c', .ok handles) ∧ Obeys used c₀ P closed c' ∧
      List.Forall₂ (P c') codes handles := by
  have hwork := hP.work hs hc hcodes hopen (schedule ++ List.replicate codes.length .submit)
  have hpending := c.pending_work codes schedule
  unfold Compiler.compileAll
  generalize c.work codes (schedule ++ List.replicate codes.length .submit) = x at hwork hpending
  obtain ⟨c₁, b⟩ := x
  obtain ⟨c', handles, heq, hc', hall⟩ := hP.completeAll hs hwork.obeys hwork.sound
  have hjobs : b.jobs.map Job.code ++ b.pending = codes := hwork.codes
  rw [hpending, List.append_nil] at hjobs
  rw [hjobs] at hall
  refine ⟨c', handles, ?_, hc', hall⟩
  dsimp only at heq ⊢
  rw [heq, collect_map_ok]

/-! ## Closed pools -/

/-- A job that is over stays as it is. -/
theorem foldl_move_finished (c : Compiler s) (code : List UInt8)
    (r : Except (CompileError s) Nat) (schedule : List Move) :
    schedule.foldl move (c, { pending := [], jobs := [{ code, stage := .finished r }] }) =
      (c, { pending := [], jobs := [{ code, stage := .finished r }] }) := by
  induction schedule with
  | nil => rfl
  | cons m schedule ih =>
    rw [List.foldl_cons]
    refine Eq.trans (congrArg (schedule.foldl move) ?_) ih
    cases m with
    | submit => rfl
    | step i => cases i <;> rfl

/-- Nothing happens before the first code is submitted. -/
theorem work_of_not_mem {schedule : List Move} (hschedule : Move.submit ∉ schedule) :
    c.work codes schedule = (c, { pending := codes }) := by
  unfold work
  induction schedule with
  | nil => rfl
  | cons m schedule ih =>
    rw [List.mem_cons, not_or] at hschedule
    cases m with
    | submit => exact absurd rfl hschedule.1
    | step i => exact ih hschedule.2

/-- The first code that is submitted to a closed pool ends the work on the list. -/
theorem work_refused {e : s.workers.Error} (he : (s.workers.submit c.pool).1 = .error e)
    (code : List UInt8) (rest : List (List UInt8)) {schedule : List Move}
    (hschedule : Move.submit ∈ schedule) :
    c.work (code :: rest) schedule = ({ c with pool := (s.workers.submit c.pool).2 }, {
      pending := [], jobs := [{ code, stage := .finished (.error (.ofPool e)) }] }) := by
  have hsubmit : s.workers.submit c.pool = (.error e, (s.workers.submit c.pool).2) :=
    Prod.ext he rfl
  unfold work
  induction schedule with
  | nil => exact absurd hschedule List.not_mem_nil
  | cons m schedule ih =>
    cases m with
    | submit =>
      rw [List.foldl_cons, ← foldl_move_finished _ code _ schedule]
      refine congrArg (schedule.foldl move) ?_
      simp only [move, submit]
      rw [hsubmit]
      rfl
    | step i => exact ih ((List.mem_cons.mp hschedule).resolve_left Move.noConfusion)

theorem cached_work_refused {e : s.workers.Error} (he : (s.workers.submit c.pool).1 = .error e)
    (hcodes : codes ≠ []) (schedule : List Move) :
    (c.work codes schedule).1.cached = c.cached := by
  obtain ⟨code, rest, rfl⟩ := List.exists_cons_of_ne_nil hcodes
  by_cases hschedule : Move.submit ∈ schedule
  · rw [work_refused he code rest hschedule]
    rfl
  · rw [work_of_not_mem hschedule]

/-- **No list is compiled where the pool is closed.** The first contract is refused, and nothing but
the pool has seen the call. -/
theorem compileAll_refused {e : s.workers.Error} (he : (s.workers.submit c.pool).1 = .error e)
    (hclosed : s.workers.isClosed e = true) (hcodes : codes ≠ []) (schedule : List Move) :
    c.compileAll schedule codes = ({ c with pool := (s.workers.submit c.pool).2 },
      .error { contract := 0, reason := .released }) := by
  obtain ⟨code, rest, rfl⟩ := List.exists_cons_of_ne_nil hcodes
  have hreason : CompileError.ofPool e = .released := if_pos hclosed
  rw [compileAll, work_refused he code rest (by simp), hreason]
  rfl

/-- **One call.** -/
theorem Policy.serve (hP : Policy used c₀ P Q) (hs : s.Lawful used)
    (hc : Obeys used c₀ P closed c) {call : Call} (hcall : ∀ code, call.Compiles code → Q code) :
    Obeys used c₀ P (closed ∨ call = .release) (c.serve call).2 := by
  cases call with
  | compile code =>
    obtain ⟨c', h, heq, hc', -⟩ := hP.compile hs hc (hcall code rfl)
    rw [Compiler.serve, heq]
    exact hc'.congr (by simp)
  | compileAll codes schedule =>
    rw [Compiler.serve]
    by_cases hopen : ¬ closed ∨ codes = []
    · obtain ⟨c', handles, heq, hc', -⟩ := hP.compileAll hs hc hcall hopen schedule
      rw [heq]
      exact hc'.congr (by simp)
    · rw [not_or, not_not] at hopen
      obtain ⟨e, he, hclosed⟩ := hc.refuses hs hopen.1
      rw [compileAll_refused he hclosed hopen.2]
      exact (hc.poolOp hP .submit).congr (by simp)
  | forget code => exact (hc.forget hP code).congr (by simp)
  | release => exact (hc.poolOp hP .release).congr (by simp)

/-- **A history.** -/
theorem Policy.run (hP : Policy used c₀ P Q) (hs : s.Lawful used)
    (hc : Obeys used c₀ P closed c) (calls : List Call)
    (hcalls : ∀ call ∈ calls, ∀ code, call.Compiles code → Q code) :
    Obeys used c₀ P (closed ∨ Call.release ∈ calls) (Calls.run Compiler.serve c calls).2 := by
  induction calls generalizing c closed with
  | nil => exact hc.congr (by simp)
  | cons call calls ih =>
    obtain ⟨hcall, hcalls⟩ := List.forall_mem_cons.mp hcalls
    refine (ih (hP.serve hs hc hcall) hcalls).congr ?_
    rw [or_assoc, List.mem_cons, eq_comm (a := call)]

end Policy

/-! ## Transparency -/

/-- A handle leads to the program that a code has without a cache. -/
def Delivers (settings : CompilerSettings) (c : Compiler s) (code : List UInt8) (handle : Nat) :
    Prop :=
  ∃ q, c.programs[handle]? = some q ∧ q.IsMade settings.optimize code

variable {used : Set (List UInt8)} {settings : CompilerSettings}

theorem delivers (used : Set (List UInt8)) {c₀ : Compiler s}
    (h : c₀.settings.optimize = settings.optimize) :
    Policy used c₀ (Delivers settings) (· ∈ used) where
  used := id
  lasts := by
    rintro c c' code h hc ⟨q, hq, hmade⟩
    exact ⟨q, hc.programs hq, hmade⟩
  fresh := by
    intro c code q hc _ hq
    have hmade := isMade_of_build hq
    rw [hc.settings, h] at hmade
    exact ⟨q, Array.getElem?_push_size, hmade⟩

/-- A code gets new handles only. -/
theorem renews (used : Set (List UInt8)) (c₀ : Compiler s) (code : List UInt8) :
    Policy used c₀ (fun _ code' h => code' = code → c₀.programs.size ≤ h) (· ∈ used) :=
  ⟨id, fun _ h => h, fun hc _ _ _ => hc.size⟩

/-- A code that is not compiled stays out of the cache. -/
theorem lacks (used : Set (List UInt8)) (c₀ : Compiler s) (code : List UInt8) :
    Policy used c₀ (fun _ code' _ => code' ≠ code) fun code' => code' ∈ used ∧ code' ≠ code :=
  ⟨And.left, fun _ h => h, fun _ h _ => h.2⟩

theorem cacheSize_sanitized_pos (processors : Nat) (settings : CompilerSettings) :
    0 < (settings.sanitized processors).cacheSize := by
  simp only [CompilerSettings.sanitized, CompilerSettings.standard]
  split <;> omega

/-- A compiler can be had with any settings. -/
theorem exists_new (hs : s.Lawful used) (settings : CompilerSettings)
    (P : Compiler s → List UInt8 → Nat → Prop) : ∃ c, new s settings = .ok c ∧
      c.settings = settings.sanitized s.processors ∧ Obeys used c P False c := by
  obtain ⟨p, hp⟩ := hs.workers.exists_new (settings.sanitized s.processors).workers
  refine ⟨{ settings := settings.sanitized s.processors, cache := s.map.new _, pool := p }, ?_, rfl,
    .refl _, cacheSize_sanitized_pos _ settings, ⟨[], rfl, fun _ _ _ => nofun⟩,
    ⟨p, [], hp, rfl, by simp⟩⟩
  rw [new, hp]
  rfl

/-- What the calls of a compiler promise after a history of calls, where certain codes are
in use. -/
structure Transparent (used : Set (List UInt8)) (settings : CompilerSettings) (calls : List Call)
    (c : Compiler s) : Prop where
  compile : ∀ code ∈ used, ∃ handle c', c.serve (.compile code) = (.program (.ok handle), c') ∧
    Delivers settings c' code handle
  compileAll : ∀ codes schedule, (∀ code ∈ codes, code ∈ used) →
    Call.release ∉ calls ∨ codes = [] → ∃ handles c',
      c.serve (.compileAll codes schedule) = (.programs (.ok handles), c') ∧
        List.Forall₂ (Delivers settings c') codes handles
  /-- A released compiler refuses the first contract of a list, and nothing but its pool changes. -/
  released : ∀ codes schedule, Call.release ∈ calls → codes ≠ [] → ∃ pool,
    c.serve (.compileAll codes schedule) =
      (.programs (.error { contract := 0, reason := .released }), { c with pool })
  /-- What was delivered stays. -/
  kept : ∀ {code handle}, Delivers settings c code handle →
    ∀ more, Delivers settings (Calls.run serve c more).2 code handle
  cached : (c.cached : Int) ≤ (settings.sanitized s.processors).cacheSize
  /-- Nor is the cache too large while a list is being compiled. -/
  cachedDuring : ∀ codes schedule, (∀ code ∈ codes, code ∈ used) →
    ((c.work codes schedule).1.cached : Int) ≤ (settings.sanitized s.processors).cacheSize
  /-- After a code was forgotten, it is built anew by the next call that compiles it. -/
  forgotten : ∀ code ∈ used, ∀ more,
    (∀ call ∈ more, ∀ code', call.Compiles code' → code' ∈ used ∧ code' ≠ code) →
    let c₁ := (Calls.run serve (c.serve (.forget code)).2 more).2
    (∃ c', c₁.serve (.compile code) = (.program (.ok c₁.programs.size), c')) ∧
      ∀ codes schedule handles c', (∀ code' ∈ codes, code' ∈ used) →
        c₁.serve (.compileAll codes schedule) = (.programs (.ok handles), c') →
        List.Forall₂ (fun code' h => code' = code → c₁.programs.size ≤ h) codes handles
  /-- A step of a job is part of the compilation of its code. -/
  stepwise : ∀ job, (c.advance job).1.complete (c.advance job).2 = c.complete job

/-- What is left of a job after a step is what was left of it before. -/
theorem complete_advance (c : Compiler s) (job : Job s) :
    (c.advance job).1.complete (c.advance job).2 = c.complete job := by
  obtain ⟨code, stage⟩ := job
  cases stage with
  | waiting =>
    simp only [advance, complete, compile]
    cases c.find code with
    | mk handle? c' => cases handle? <;> rfl
  | missed => rfl
  | finished r => rfl

theorem serve_compile {handle : Nat} (h : c.compile code = (c', .ok handle)) :
    c.serve (.compile code) = (.program (.ok handle), c') := by
  rw [serve, h]

theorem serve_compileAll {schedule : List Move} {handles : List Nat}
    (h : c.compileAll schedule codes = (c', .ok handles)) :
    c.serve (.compileAll codes schedule) = (.programs (.ok handles), c') := by
  rw [serve, h]

/-- A code that is not found is built, and its handle is new. -/
theorem compile_of_none (h : c.find code = (none, c')) :
    ∃ c'', c.compile code = (c'', .ok c.programs.size) := by
  have hprograms : c'.programs = c.programs := (congrArg (·.2.programs) h).symm
  obtain ⟨q, hq⟩ := c'.exists_build code
  refine ⟨(c'.add code q).2, ?_⟩
  rw [compile, h]
  dsimp only
  rw [supply, hq, ← hprograms]
  rfl

/-- The next call that compiles a forgotten code builds it. -/
theorem rebuilds_forgotten (hs : s.Lawful used) {c₀ : Compiler s}
    {P : Compiler s → List UInt8 → Nat → Prop} {closed : Prop} (hc : Obeys used c₀ P closed c)
    (hcode : code ∈ used) {more : List Call}
    (hmore : ∀ call ∈ more, ∀ code', call.Compiles code' → code' ∈ used ∧ code' ≠ code) :
    let c₁ := (Calls.run serve (c.serve (.forget code)).2 more).2
    (∃ c', c₁.serve (.compile code) = (.program (.ok c₁.programs.size), c')) ∧
      ∀ codes schedule handles c', (∀ code' ∈ codes, code' ∈ used) →
        c₁.serve (.compileAll codes schedule) = (.programs (.ok handles), c') →
        List.Forall₂ (fun code' h => code' = code → c₁.programs.size ≤ h) codes handles := by
  intro c₁
  have hstart : Obeys used (c.forget code) (fun _ code' _ => code' ≠ code) closed
      (c.forget code) := by
    obtain ⟨ops, hcache, -⟩ := hc.cache
    refine ⟨.refl _, hc.room, ⟨.remove (s.hash code) :: ops, ?_, ?_⟩, hc.pool⟩
    · exact congrArg (s.map.remove · (s.hash code)) hcache
    · rintro _ - h hh rfl
      rw [lastStored, if_pos rfl] at hh
      cases hh
  have hlacks := (lacks used (c.forget code) code).run hs hstart more hmore
  obtain ⟨ops, hcache, hstored⟩ := hlacks.cache
  have habsent : lastStored (s.hash code) ops = none := by
    by_contra hsome
    obtain ⟨h, hh⟩ := Option.ne_none_iff_exists'.mp hsome
    exact hstored code hcode h hh rfl
  constructor
  · rcases (lacks used (c.forget code) code).find hs hlacks hcode with
      ⟨_, _, -, -, hne⟩ | ⟨_, hmiss, -⟩
    · exact absurd rfl hne
    · obtain ⟨c', hcompile⟩ := compile_of_none hmiss
      exact ⟨c', serve_compile hcompile⟩
  · intro codes schedule handles c' hcodes hserve
    have hrenews : Obeys used c₁ (fun _ code' h => code' = code → c₁.programs.size ≤ h)
        (closed ∨ Call.release ∈ more) c₁ := by
      refine ⟨.refl _, hlacks.room, ⟨ops, hcache, ?_⟩, hlacks.pool⟩
      rintro _ - h hh rfl
      rw [habsent] at hh
      cases hh
    by_cases hopen : ¬ (closed ∨ Call.release ∈ more) ∨ codes = []
    · obtain ⟨c₂, hs, heq, -, hall⟩ :=
        (renews used c₁ code).compileAll hs hrenews hcodes hopen schedule
      rw [serve_compileAll heq] at hserve
      cases hserve
      exact hall
    · rw [not_or, not_not] at hopen
      obtain ⟨e, he, hclosed⟩ := hrenews.refuses hs hopen.1
      rw [serve, compileAll_refused he hclosed hopen.2] at hserve
      cases hserve

/-- **The cache is transparent.** Whatever the settings and whatever calls were made, and however
the jobs of a list take their turns, each code gets the program that it has without a cache. The
cache keeps to its size, a forgotten code is built anew, and a released compiler compiles single
codes but no list. Assumed is that the services are lawful, and so that no two codes in use have the
same hash. -/
theorem run_transparent (s : Services) (used : Set (List UInt8)) (hs : s.Lawful used)
    (settings : CompilerSettings) (calls : List Call)
    (hcalls : ∀ call ∈ calls, ∀ code, call.Compiles code → code ∈ used) :
    ∃ c, new s settings = .ok c ∧ Transparent used settings calls (Calls.run serve c calls).2 := by
  obtain ⟨c₀, hnew, hsettings, hstart⟩ := exists_new hs settings (Delivers settings)
  have hP : Policy used c₀ (Delivers settings) (· ∈ used) :=
    delivers used (by rw [hsettings]; rfl)
  have hobeys := (hP.run hs hstart calls hcalls).congr (iff_of_eq (false_or _))
  refine ⟨c₀, hnew, ?_⟩
  generalize (Calls.run serve c₀ calls).2 = c at hobeys ⊢
  have hfits : ∀ {c'}, Obeys used c₀ (Delivers settings) (Call.release ∈ calls) c' →
      (c'.cached : Int) ≤ (settings.sanitized s.processors).cacheSize := by
    intro c' hc'
    rw [← hsettings, ← hc'.follows.settings]
    exact hc'.cached_le hs
  constructor
  case compile =>
    intro code hcode
    obtain ⟨c', handle, heq, -, hdelivers⟩ := hP.compile hs hobeys hcode
    exact ⟨handle, c', serve_compile heq, hdelivers⟩
  case compileAll =>
    intro codes schedule hcodes hopen
    obtain ⟨c', handles, heq, -, hall⟩ := hP.compileAll hs hobeys hcodes hopen schedule
    exact ⟨handles, c', serve_compileAll heq, hall⟩
  case released =>
    intro codes schedule hrelease hcodes
    obtain ⟨e, he, hclosed⟩ := hobeys.refuses hs hrelease
    exact ⟨_, by rw [serve, compileAll_refused he hclosed hcodes]⟩
  case kept =>
    intro code handle hdelivers more
    exact hP.lasts (c.follows_run more) hdelivers
  case cached => exact hfits hobeys
  case cachedDuring =>
    intro codes schedule hcodes
    by_cases hopen : Call.release ∉ calls ∨ codes = []
    · exact hfits (hP.work hs hobeys hcodes hopen schedule).obeys
    · rw [not_or, not_not] at hopen
      obtain ⟨e, he, -⟩ := hobeys.refuses hs hopen.1
      rw [cached_work_refused he hopen.2]
      exact hfits hobeys
  case forgotten => exact fun code hcode more => rebuilds_forgotten hs hobeys hcode
  case stepwise => exact c.complete_advance

/-- Two codes. -/
def crowdedCodes : List (List UInt8) := [[0x00], []]

/-- Two jobs miss the same code and both build it; a cache with room for one entry keeps the program
of one of the two, and the third job pushes that one out too. -/
def crowdedCalls : List Call :=
  [.compileAll [[0x00], [0x00], []] [.submit, .submit, .step 0, .step 1, .step 1, .step 0],
    .compile [], .forget [0x00], .compile [0x00], .release]

theorem injOn_hash_crowdedCodes : Set.InjOn Keccak.hash256 {code | code ∈ crowdedCodes} := by
  have hnodup : (crowdedCodes.map Keccak.hash256).Nodup := by decide +kernel
  intro code hcode code' hcode'
  exact List.inj_on_of_nodup_map hnodup hcode hcode'

theorem run_transparent_crowded :
    (Services.standard 4).Lawful {code | code ∈ crowdedCodes} ∧
      (∀ call ∈ crowdedCalls, ∀ code, call.Compiles code → code ∈ crowdedCodes) ∧
      ∃ c, new (.standard 4) { cacheSize := 1, workers := 0, optimize := true } = .ok c ∧
        Transparent {code | code ∈ crowdedCodes}
          { cacheSize := 1, workers := 0, optimize := true } crowdedCalls
          (Calls.run serve c crowdedCalls).2 := by
  have hs := Services.lawful_standard 4 injOn_hash_crowdedCodes
  have hcalls : ∀ call ∈ crowdedCalls, ∀ code, call.Compiles code → code ∈ crowdedCodes := by
    simp [crowdedCalls, crowdedCodes, Call.Compiles]
  exact ⟨hs, hcalls, run_transparent _ _ hs _ crowdedCalls hcalls⟩

/-- Where codes are their own hashes, the calls build four programs. -/
example : (new { Services.standard 4 with hash := id } ⟨1, 0, true⟩).toOption.map
    (fun c => (Calls.run serve c crowdedCalls).2.programs.size) = some 4 := by
  decide +kernel

end Compiler

end EvmFlow
