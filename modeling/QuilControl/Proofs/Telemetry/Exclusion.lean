import QuilControl.Telemetry.Handle

/-!
# One handle at a time

Whoever has claimed the flag owns it until the last step of a removal. In every reachable state at most one
thread is the owner, the flag says whether there is one, and a thread that is not the owner has neither a
handle nor a subscriber (`Tracing.HeldBy`). One step keeps this (`Tracing.HeldBy.step`), so every interleaving
does (`Tracing.HeldBy.interleave`). Of the state, a step reads and writes the flag and its own thread alone
(`TracingThread.Takes`, `Tracing.stepWith_eq_some_iff`), so an installation that fails can be left out of a
run, and one that has claimed the flag is completed whatever the others do.
-/

namespace QuilControl

/-! ## Threads -/

namespace TracingThread

/-- The handles that exist on a thread: those that it has, and the one that it is removing. -/
def alive (thread : TracingThread) : List TracingHandle :=
  match thread.activity with
  | .left handle => handle :: thread.handles
  | .restored handle => handle :: thread.handles
  | _ => thread.handles

/-- Whether the thread has claimed the flag and its installation has not ended. -/
def IsInstalling (thread : TracingThread) : Prop := ∃ config, thread.activity = .claimed config

def IsRemoving (thread : TracingThread) : Prop :=
  ∃ handle, thread.activity = .left handle ∨ thread.activity = .restored handle

/-- The steps of a thread: what it does to the flag and to itself, and the error it ends in. -/
inductive Takes (isFilter : String → Bool) :
    Bool → TracingThread → TracingStep → Bool → TracingThread → Option InstallError → Prop
  | check {active handles subscribers} (config : TracingConfig) (hfilter : isFilter config.logLevel = true) :
    Takes isFilter active ⟨.idle, handles, subscribers⟩ (.check config)
      active ⟨.checked config, handles, subscribers⟩ none
  | refuse {active handles subscribers} (config : TracingConfig) (hfilter : isFilter config.logLevel = false) :
    Takes isFilter active ⟨.idle, handles, subscribers⟩ (.check config)
      active ⟨.idle, handles, subscribers⟩ (some (.invalidFilter config.logLevel))
  | claim {config handles subscribers} :
    Takes isFilter false ⟨.checked config, handles, subscribers⟩ .claim
      true ⟨.claimed config, handles, subscribers⟩ none
  | giveUp {config handles subscribers} :
    Takes isFilter true ⟨.checked config, handles, subscribers⟩ .claim
      true ⟨.idle, handles, subscribers⟩ (some .alreadyActive)
  | subscribe {active config handles subscribers} :
    Takes isFilter active ⟨.claimed config, handles, subscribers⟩ .subscribe
      active ⟨.idle, ⟨config.serviceName⟩ :: handles, ⟨config.serviceName⟩ :: subscribers⟩ none
  | leave {active handles subscribers handle} (index : Nat) (hhandle : handles[index]? = some handle) :
    Takes isFilter active ⟨.idle, handles, subscribers⟩ (.leave index)
      active ⟨.left handle, handles.eraseIdx index, subscribers⟩ none
  | restore {active handle handles subscribers} :
    Takes isFilter active ⟨.left handle, handles, subscribers⟩ .restore
      active ⟨.restored handle, handles, subscribers.erase handle⟩ none
  | release {active handle handles subscribers} :
    Takes isFilter active ⟨.restored handle, handles, subscribers⟩ .release
      false ⟨.idle, handles, subscribers⟩ none

/-- A thread that does not own the flag. -/
inductive IsFree : TracingThread → Prop
  | idle : IsFree ⟨.idle, [], []⟩
  | checked (config : TracingConfig) : IsFree ⟨.checked config, [], []⟩

/-- A thread that owns the flag, from its claim on to the last step of the removal. With a handle it may
still begin further installations. -/
inductive IsOwner : TracingThread → Prop
  | claimed (config : TracingConfig) : IsOwner ⟨.claimed config, [], []⟩
  | idle (handle : TracingHandle) : IsOwner ⟨.idle, [handle], [handle]⟩
  | checked (config : TracingConfig) (handle : TracingHandle) : IsOwner ⟨.checked config, [handle], [handle]⟩
  | left (handle : TracingHandle) : IsOwner ⟨.left handle, [], [handle]⟩
  | restored (handle : TracingHandle) : IsOwner ⟨.restored handle, [], []⟩

variable {isFilter : String → Bool} {active active' : Bool} {thread thread' : TracingThread} {s : TracingStep}
  {e : Option InstallError}

theorem IsFree.alive_eq (h : thread.IsFree) : thread.alive = [] := by cases h <;> rfl

theorem IsFree.subscribers_eq (h : thread.IsFree) : thread.subscribers = [] := by cases h <;> rfl

theorem IsFree.not_isInstalling (h : thread.IsFree) : ¬ thread.IsInstalling := by
  rintro ⟨config, hconfig⟩
  cases h <;> cases hconfig

theorem IsFree.not_isRemoving (h : thread.IsFree) : ¬ thread.IsRemoving := by
  rintro ⟨handle, hhandle | hhandle⟩ <;> cases h <;> cases hhandle

theorem IsFree.eq_of_checked {config : TracingConfig} (h : thread.IsFree)
    (hactivity : thread.activity = .checked config) : thread = ⟨.checked config, [], []⟩ := by
  cases h <;> cases hactivity
  rfl

theorem IsOwner.length_alive_le (h : thread.IsOwner) : thread.alive.length ≤ 1 := by
  cases h <;> simp [alive]

theorem IsOwner.length_subscribers_le (h : thread.IsOwner) : thread.subscribers.length ≤ 1 := by
  cases h <;> simp

/-- The owner is about to have a handle, or there is one. -/
theorem IsOwner.alive_or_isInstalling (h : thread.IsOwner) : thread.alive ≠ [] ∨ thread.IsInstalling := by
  cases h with
  | claimed config => exact Or.inr ⟨config, rfl⟩
  | idle | checked | left | restored => exact Or.inl (List.cons_ne_nil _ _)

/-- Only a flag that is not set can be claimed. -/
theorem IsFree.takes (h : thread.IsFree) (hs : Takes isFilter active thread s active' thread' e) :
    (thread'.IsFree ∧ active' = active) ∨ (thread'.IsOwner ∧ active = false ∧ active' = true) := by
  cases hs with
  | check config => exact Or.inl ⟨by cases h; exact .checked config, rfl⟩
  | refuse => exact Or.inl ⟨h, rfl⟩
  | claim => exact Or.inr ⟨by cases h; exact .claimed _, rfl, rfl⟩
  | giveUp => exact Or.inl ⟨by cases h; exact .idle, rfl⟩
  | leave index hhandle => cases h; cases hhandle
  | subscribe | restore | release => cases h

/-- Until it releases the flag, the owner stays the owner. -/
theorem IsOwner.takes (h : thread.IsOwner) (hs : Takes isFilter true thread s active' thread' e) :
    (thread'.IsOwner ∧ active' = true) ∨ (thread'.IsFree ∧ active' = false) := by
  cases hs with
  | check config => exact Or.inl ⟨by cases h; exact .checked config _, rfl⟩
  | refuse => exact Or.inl ⟨h, rfl⟩
  | giveUp => exact Or.inl ⟨by cases h; exact .idle _, rfl⟩
  | subscribe => exact Or.inl ⟨by cases h; exact .idle _, rfl⟩
  | leave index hhandle =>
    cases h with
    | idle own =>
      obtain ⟨hindex, hown⟩ := List.getElem?_eq_some_iff.1 hhandle
      obtain rfl : index = 0 := Nat.lt_one_iff.1 hindex
      obtain rfl := hown
      exact Or.inl ⟨.left _, rfl⟩
  | restore =>
    cases h with
    | left own => exact Or.inl ⟨by simpa using IsOwner.restored _, rfl⟩
  | release => exact Or.inr ⟨by cases h; exact .idle, rfl⟩

end TracingThread

namespace Tracing

open TracingThread (Takes)

variable {isFilter : String → Bool} {t u v w : Tracing} {id j : Nat} {s : TracingStep} {e : Option InstallError}
  {thread thread' : TracingThread}

/-! ## Steps -/

@[simp]
theorem threads_update_self (t : Tracing) (id : Nat) (thread : TracingThread) :
    (t.update id thread).threads id = thread := if_pos rfl

theorem threads_update_of_ne (t : Tracing) (thread : TracingThread) (h : j ≠ id) :
    (t.update id thread).threads j = t.threads j := if_neg h

@[simp]
theorem active_update (t : Tracing) (id : Nat) (thread : TracingThread) :
    (t.update id thread).active = t.active := rfl

theorem update_self (t : Tracing) (id : Nat) : t.update id (t.threads id) = t := by
  have hthreads : (t.update id (t.threads id)).threads = t.threads := by
    funext i
    by_cases h : i = id
    · rw [h, threads_update_self]
    · exact threads_update_of_ne t _ h
  calc t.update id (t.threads id) = ⟨t.active, (t.update id (t.threads id)).threads⟩ := rfl
    _ = t := by rw [hthreads]

theorem update_update (t : Tracing) (id : Nat) (thread thread' : TracingThread) :
    (t.update id thread).update id thread' = t.update id thread' := by
  refine congrArg (Tracing.mk t.active) (funext fun i => ?_)
  by_cases h : i = id <;> simp [update, h]

theorem update_comm (t : Tracing) (h : id ≠ j) (thread thread' : TracingThread) :
    (t.update id thread).update j thread' = (t.update j thread').update id thread := by
  refine congrArg (Tracing.mk t.active) (funext fun i => ?_)
  by_cases hi : i = id
  · have hj : i ≠ j := hi ▸ h
    simp [update, hi, h]
  · simp [update, hi]

theorem stepWith_eq_some_iff :
    t.stepWith isFilter id s = some (u, e) ↔
      ∃ active thread, Takes isFilter t.active (t.threads id) s active thread e ∧
        u = { t with active := active }.update id thread := by
  rcases hthread : t.threads id with ⟨activity, handles, subscribers⟩
  constructor
  · intro h
    cases s <;> cases activity <;> simp only [stepWith, hthread, reduceCtorEq] at h
    case check.idle config =>
      by_cases hfilter : isFilter config.logLevel = true
      · rw [if_pos hfilter] at h
        cases h
        exact ⟨_, _, .check config hfilter, rfl⟩
      · rw [if_neg hfilter] at h
        cases h
        refine ⟨_, _, .refuse config (Bool.eq_false_iff.2 hfilter), ?_⟩
        rw [← hthread]
        exact (update_self t id).symm
    case claim.checked config =>
      by_cases hactive : t.active = true
      · rw [if_pos hactive] at h
        cases h
        rw [hactive]
        exact ⟨_, _, .giveUp, by rw [← hactive]⟩
      · rw [if_neg hactive] at h
        cases h
        rw [Bool.eq_false_iff.2 hactive]
        exact ⟨_, _, .claim, rfl⟩
    case subscribe.claimed =>
      cases h
      exact ⟨_, _, .subscribe, rfl⟩
    case leave.idle index =>
      split at h
      · cases h
        exact ⟨_, _, .leave index ‹_›, rfl⟩
      · cases h
    case restore.left =>
      cases h
      exact ⟨_, _, .restore, rfl⟩
    case release.restored =>
      cases h
      exact ⟨_, _, .release, rfl⟩
  · rintro ⟨active, thread, hs, rfl⟩
    generalize hactive : t.active = active' at hs
    cases hs with
    | check config hfilter => simp [stepWith, hthread, hfilter, ← hactive]
    | refuse config hfilter =>
      have hself : t.update id ⟨.idle, handles, subscribers⟩ = t := hthread ▸ update_self t id
      simp [stepWith, hthread, hfilter, ← hactive, hself]
    | giveUp =>
      have hsame : (⟨true, t.threads⟩ : Tracing) = t := by rw [← hactive]
      simp [stepWith, hthread, hactive, hsame]
    | leave index hhandle => simp [stepWith, hthread, hhandle, ← hactive]
    | claim | subscribe | restore | release => simp [stepWith, hthread, ← hactive]

/-! ## The owner of the flag -/

/-- Whether the flag is owned by this thread, or by none. -/
structure HeldBy (t : Tracing) (owner : Option Nat) : Prop where
  active : t.active = owner.isSome
  free : ∀ i, owner ≠ some i → (t.threads i).IsFree
  owned : ∀ i, owner = some i → (t.threads i).IsOwner

theorem heldBy_initial : initial.HeldBy none where
  active := rfl
  free _ _ := .idle
  owned _ h := nomatch h

variable {owner : Option Nat}

/-- A thread changes, and of the others none comes to own the flag or loses it. -/
theorem HeldBy.update (h : t.HeldBy owner) (owner' : Option Nat)
    (hothers : ∀ i, i ≠ id → (owner = some i ↔ owner' = some i))
    (hfree : owner' ≠ some id → thread.IsFree) (howned : owner' = some id → thread.IsOwner) :
    ({ t with active := owner'.isSome }.update id thread).HeldBy owner' where
  active := rfl
  free i hi := by
    by_cases hid : i = id
    · subst hid
      simpa using hfree hi
    · rw [threads_update_of_ne _ _ hid]
      exact h.free i (mt (hothers i hid).1 hi)
  owned i hi := by
    by_cases hid : i = id
    · subst hid
      simpa using howned hi
    · rw [threads_update_of_ne _ _ hid]
      exact h.owned i ((hothers i hid).2 hi)

theorem HeldBy.eq_some_of_not_isFree (h : t.HeldBy owner) (hfree : ¬ (t.threads id).IsFree) : owner = some id :=
  Decidable.not_not.1 (mt (h.free id) hfree)

/-- The owner changes by a claim and by a release, and by nothing else. -/
theorem HeldBy.step (h : t.HeldBy owner) (hs : t.stepWith isFilter id s = some (u, e)) :
    ∃ owner', u.HeldBy owner' := by
  obtain ⟨active, thread, htakes, rfl⟩ := stepWith_eq_some_iff.1 hs
  by_cases hid : owner = some id
  · have howner := h.owned id hid
    subst hid
    rw [show t.active = true from h.active] at htakes
    obtain ⟨hthread, rfl⟩ | ⟨hthread, rfl⟩ := howner.takes htakes
    · exact ⟨some id, h.update (some id) (fun _ _ => Iff.rfl) (absurd rfl) fun _ => hthread⟩
    · refine ⟨none, h.update none (fun i hi => ?_) (fun _ => hthread) nofun⟩
      simpa using hi.symm
  · obtain ⟨hthread, rfl⟩ | ⟨hthread, hactive, rfl⟩ := (h.free id hid).takes htakes
    · rw [h.active]
      exact ⟨owner, h.update owner (fun _ _ => Iff.rfl) (fun _ => hthread) fun hid' => absurd hid' hid⟩
    · -- A flag that is not set has no owner.
      obtain rfl : owner = none := by simpa [hactive] using h.active.symm
      refine ⟨some id, h.update (some id) (fun i hi => ?_) (absurd rfl) fun _ => hthread⟩
      simpa using hi.symm

/-! ## Interleavings -/

variable {steps others : List (Nat × TracingStep)}

theorem interleave_cons_eq_some :
    t.interleave isFilter ((id, s) :: steps) = some u ↔
      ∃ v e, t.stepWith isFilter id s = some (v, e) ∧ v.interleave isFilter steps = some u := by
  simp only [interleave]
  split <;> simp_all

theorem HeldBy.interleave (h : t.HeldBy owner) (hsteps : t.interleave isFilter steps = some u) :
    ∃ owner', u.HeldBy owner' := by
  induction steps generalizing t owner with
  | nil =>
    obtain rfl : t = u := by simpa [Tracing.interleave] using hsteps
    exact ⟨owner, h⟩
  | cons step steps ih =>
    obtain ⟨v, e, hstep, hrest⟩ := interleave_cons_eq_some.1 hsteps
    obtain ⟨owner', hv⟩ := h.step hstep
    exact ih hv hrest

/-- What holds of the handles, of the subscribers and of the flag at every moment. -/
structure IsExclusive (t : Tracing) : Prop where
  alive : ∀ i j, (t.threads i).alive ≠ [] → (t.threads j).alive ≠ [] → i = j
  length_alive : ∀ i, (t.threads i).alive.length ≤ 1
  subscribers : ∀ i j, (t.threads i).subscribers ≠ [] → (t.threads j).subscribers ≠ [] → i = j
  length_subscribers : ∀ i, (t.threads i).subscribers.length ≤ 1
  active : t.active = true ↔
    ∃ i, (t.threads i).alive ≠ [] ∨ (t.threads i).IsInstalling ∨ (t.threads i).IsRemoving

theorem HeldBy.isExclusive (h : t.HeldBy owner) : t.IsExclusive := by
  have owner_of_alive (i : Nat) (hi : (t.threads i).alive ≠ []) : owner = some i :=
    h.eq_some_of_not_isFree fun hfree => hi hfree.alive_eq
  have owner_of_subscribers (i : Nat) (hi : (t.threads i).subscribers ≠ []) : owner = some i :=
    h.eq_some_of_not_isFree fun hfree => hi hfree.subscribers_eq
  refine ⟨fun i j hi hj => ?_, fun i => ?_, fun i j hi hj => ?_, fun i => ?_, ?_, ?_⟩
  · exact Option.some.inj ((owner_of_alive i hi).symm.trans (owner_of_alive j hj))
  · by_cases hi : owner = some i
    · exact (h.owned i hi).length_alive_le
    · simp [(h.free i hi).alive_eq]
  · exact Option.some.inj ((owner_of_subscribers i hi).symm.trans (owner_of_subscribers j hj))
  · by_cases hi : owner = some i
    · exact (h.owned i hi).length_subscribers_le
    · simp [(h.free i hi).subscribers_eq]
  · intro hactive
    obtain ⟨i, hi⟩ := Option.isSome_iff_exists.1 (h.active.symm.trans hactive)
    exact ⟨i, (h.owned i hi).alive_or_isInstalling.imp_right Or.inl⟩
  · rintro ⟨i, hi | hi | hi⟩
    · rw [h.active, owner_of_alive i hi, Option.isSome_some]
    · rw [h.active, h.eq_some_of_not_isFree fun hfree => hfree.not_isInstalling hi, Option.isSome_some]
    · rw [h.active, h.eq_some_of_not_isFree fun hfree => hfree.not_isRemoving hi, Option.isSome_some]

/-! ## What other threads do -/

theorem threads_of_stepWith (hs : t.stepWith isFilter id s = some (u, e)) (hj : j ≠ id) :
    u.threads j = t.threads j := by
  obtain ⟨active, thread, htakes, rfl⟩ := stepWith_eq_some_iff.1 hs
  exact threads_update_of_ne _ thread hj

/-- A step does not depend on the state of another thread. -/
theorem stepWith_update (hs : t.stepWith isFilter id s = some (u, e)) (hj : id ≠ j) (other : TracingThread) :
    (t.update j other).stepWith isFilter id s = some (u.update j other, e) := by
  obtain ⟨active, thread, htakes, rfl⟩ := stepWith_eq_some_iff.1 hs
  refine stepWith_eq_some_iff.2 ⟨active, thread, ?_, update_comm _ hj thread other⟩
  rwa [threads_update_of_ne t other hj, active_update]

theorem threads_of_interleave (hothers : ∀ other ∈ others, other.1 ≠ id)
    (h : t.interleave isFilter others = some u) : u.threads id = t.threads id := by
  induction others generalizing t with
  | nil =>
    obtain rfl : t = u := by simpa [Tracing.interleave] using h
    rfl
  | cons other others ih =>
    obtain ⟨hother, hrest⟩ := List.forall_mem_cons.1 hothers
    obtain ⟨v, e, hstep, hv⟩ := interleave_cons_eq_some.1 h
    exact (ih hrest hv).trans (threads_of_stepWith hstep hother.symm)

theorem interleave_update (hothers : ∀ other ∈ others, other.1 ≠ id)
    (h : t.interleave isFilter others = some u) (thread : TracingThread) :
    (t.update id thread).interleave isFilter others = some (u.update id thread) := by
  induction others generalizing t with
  | nil =>
    obtain rfl : t = u := by simpa [Tracing.interleave] using h
    rfl
  | cons other others ih =>
    obtain ⟨hother, hrest⟩ := List.forall_mem_cons.1 hothers
    obtain ⟨v, e, hstep, hv⟩ := interleave_cons_eq_some.1 h
    exact interleave_cons_eq_some.2 ⟨_, e, stepWith_update hstep hother thread, ih hrest hv⟩

/-! ## Installations -/

variable {config : TracingConfig} {error : InstallError}

/-- Checking the filter and claiming the flag can fail: the one changes nothing, the other finds the flag
set. -/
theorem failing_step (hs : t.stepWith isFilter id s = some (u, some error)) :
    (∃ config, s = .check config ∧ error = .invalidFilter config.logLevel ∧ u = t) ∨
      (s = .claim ∧ error = .alreadyActive ∧ t.active = true) := by
  obtain ⟨active, thread, htakes, rfl⟩ := stepWith_eq_some_iff.1 hs
  generalize hthread : t.threads id = own at htakes
  generalize hactive : t.active = flag at htakes
  cases htakes with
  | refuse config =>
    refine Or.inl ⟨config, rfl, rfl, ?_⟩
    rw [← hthread, ← hactive]
    exact update_self t id
  | giveUp => exact Or.inr ⟨rfl, rfl, rfl⟩

theorem check_eq_some (hs : t.stepWith isFilter id (.check config) = some (u, none)) :
    (t.threads id).activity = .idle ∧ u = t.update id { t.threads id with activity := .checked config } := by
  obtain ⟨active, thread, htakes, rfl⟩ := stepWith_eq_some_iff.1 hs
  generalize hthread : t.threads id = own at htakes
  generalize hactive : t.active = flag at htakes
  cases htakes with
  | check => exact ⟨rfl, by rw [← hactive]⟩

theorem failing_claim (hs : t.stepWith isFilter id .claim = some (u, some error)) :
    u = t.update id { t.threads id with activity := .idle } := by
  obtain ⟨active, thread, htakes, rfl⟩ := stepWith_eq_some_iff.1 hs
  generalize hthread : t.threads id = own at htakes
  generalize hactive : t.active = flag at htakes
  cases htakes with
  | giveUp => rw [← hactive]

/-- After a failed installation everything is as if its steps were left out of the run. -/
theorem interleave_of_failing_claim (hcheck : t.stepWith isFilter id (.check config) = some (u, none))
    (hothers : ∀ other ∈ others, other.1 ≠ id) (hrun : u.interleave isFilter others = some v)
    (hclaim : v.stepWith isFilter id .claim = some (w, some error)) :
    t.interleave isFilter others = some w := by
  obtain ⟨hidle, hu⟩ := check_eq_some hcheck
  have hrestored : u.update id (t.threads id) = t := by rw [hu, update_update, update_self]
  have hown : v.threads id = { t.threads id with activity := .checked config } := by
    rw [threads_of_interleave hothers hrun, hu, threads_update_self]
  have hw : w = v.update id (t.threads id) := by rw [failing_claim hclaim, hown, ← hidle]
  calc t.interleave isFilter others
      = (u.update id (t.threads id)).interleave isFilter others := by rw [hrestored]
    _ = some (v.update id (t.threads id)) := interleave_update hothers hrun (t.threads id)
    _ = some w := by rw [hw]

/-- An installation that finds the flag free is completed, whatever the others do. -/
theorem HeldBy.install (h : t.HeldBy owner) (hchecked : (t.threads id).activity = .checked config)
    (hactive : t.active = false) :
    ∃ u, t.stepWith isFilter id .claim = some (u, none) ∧
      ∀ others v, (∀ other ∈ others, other.1 ≠ id) → u.interleave isFilter others = some v →
        ∃ w, v.stepWith isFilter id .subscribe = some (w, none) ∧
          (w.threads id).alive = [⟨config.serviceName⟩] ∧
          (w.threads id).subscribers = [⟨config.serviceName⟩] := by
  obtain rfl : owner = none := by simpa [hactive] using h.active.symm
  have hown : t.threads id = ⟨.checked config, [], []⟩ := (h.free id nofun).eq_of_checked hchecked
  refine ⟨_, stepWith_eq_some_iff.2 ⟨true, ⟨.claimed config, [], []⟩, ?_, rfl⟩, fun others v hothers hrun => ?_⟩
  · rw [hown, hactive]
    exact .claim
  · have hclaimed : v.threads id = ⟨.claimed config, [], []⟩ := by
      rw [threads_of_interleave hothers hrun, threads_update_self]
    refine ⟨v.update id ⟨.idle, [⟨config.serviceName⟩], [⟨config.serviceName⟩]⟩,
      stepWith_eq_some_iff.2 ⟨v.active, _, ?_, rfl⟩, ?_, ?_⟩
    · rw [hclaimed]
      exact .subscribe
    · rw [threads_update_self, TracingThread.alive]
    · rw [threads_update_self]

/-- At most one handle, in every state that any steps of any threads lead to: handles, subscribers and the
flag are as `IsExclusive` says; an installation fails when its filter is invalid or when it finds the flag set,
and leaves nothing behind; one that finds the flag free is completed. -/
theorem exclusive_of_interleave (h : initial.interleave isFilter steps = some t) :
    t.IsExclusive ∧
      (∀ id s u error, t.stepWith isFilter id s = some (u, some error) →
        (∃ config, s = .check config ∧ error = .invalidFilter config.logLevel ∧ u = t) ∨
          (s = .claim ∧ error = .alreadyActive ∧ t.active = true)) ∧
      (∀ id config others u v w error, t.stepWith isFilter id (.check config) = some (u, none) →
        (∀ other ∈ others, other.1 ≠ id) → u.interleave isFilter others = some v →
        v.stepWith isFilter id .claim = some (w, some error) → t.interleave isFilter others = some w) ∧
      (∀ id config, (t.threads id).activity = .checked config → t.active = false →
        ∃ u, t.stepWith isFilter id .claim = some (u, none) ∧
          ∀ others v, (∀ other ∈ others, other.1 ≠ id) → u.interleave isFilter others = some v →
            ∃ w, v.stepWith isFilter id .subscribe = some (w, none) ∧
              (w.threads id).alive = [⟨config.serviceName⟩] ∧
              (w.threads id).subscribers = [⟨config.serviceName⟩]) := by
  obtain ⟨owner, hheld⟩ := heldBy_initial.interleave h
  exact ⟨hheld.isExclusive, fun _ _ _ _ => failing_step,
    fun _ _ _ _ _ _ _ => interleave_of_failing_claim, fun _ _ => hheld.install⟩

/-- A thread gives up while another one installs, and begins again while that one removes its handle. -/
def twoThreads : List (Nat × TracingStep) :=
  [(0, .check ⟨"info", .json, "first"⟩), (1, .check ⟨"debug", .console, "second"⟩), (0, .claim), (1, .claim),
    (0, .subscribe), (1, .check ⟨"info,,=", .console, "second"⟩), (0, .leave 0),
    (1, .check ⟨"debug", .console, "second"⟩), (0, .restore)]

theorem exclusive_of_interleave_twoThreads :
    ∃ t, initial.interleave (· != "info,,=") twoThreads = some t ∧ t.IsExclusive ∧ t.active = true ∧
      (t.threads 0).alive = [⟨"first"⟩] ∧ (t.threads 0).subscribers = [] :=
  ⟨_, rfl, (exclusive_of_interleave (show initial.interleave (· != "info,,=") twoThreads = some _ from rfl)).1,
    rfl, rfl, rfl⟩

end Tracing

end QuilControl
