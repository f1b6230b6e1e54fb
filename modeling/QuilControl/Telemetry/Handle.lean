import QuilControl.Telemetry.Config
import QuilControl.Telemetry.Filter
import QuilControl.Text.Quoted

/-!
# The tracing handle

A handle owns the log subscriber of the thread that installed it. A flag, shared by all threads,
admits one handle at a time. Threads take the steps of an installation (check the filter, claim the
flag, subscribe) and of a removal (leave the span, restore, release the flag) one by one, in any
interleaving; `Tracing.step` is one such step, and `Tracing.interleave` takes the steps of many threads.
Which texts are filters is left open in `Tracing.stepWith`.
-/

namespace QuilControl

structure TracingHandle where
  serviceName : String
deriving DecidableEq

/-- The text of a handle in diagnostics. -/
def TracingHandle.text (h : TracingHandle) : String :=
  "TracingHandle \x7b service_name: " ++ String.ofList (Text.quoted h.serviceName.toList) ++
    ", installed: true \x7d"

inductive InstallError where
  | invalidFilter (filter : String)
  | alreadyActive
deriving DecidableEq

def InstallError.message : InstallError → String
  | invalidFilter filter => "invalid log filter '" ++ filter ++ "'"
  | alreadyActive => "a tracing subscriber is already active in this process"

/-- What a thread is in the middle of. -/
inductive TracingActivity where
  | idle
  /-- Installing: the filter is valid. -/
  | checked (config : TracingConfig)
  /-- Installing: the flag is claimed. -/
  | claimed (config : TracingConfig)
  /-- Removing: the span of the handle is left. -/
  | left (handle : TracingHandle)
  /-- Removing: the subscriber of the handle is gone. -/
  | restored (handle : TracingHandle)
deriving DecidableEq

structure TracingThread where
  activity : TracingActivity
  /-- The handles that the thread has and is not removing. -/
  handles : List TracingHandle
  /-- The handles whose subscribers are installed on the thread, latest first. -/
  subscribers : List TracingHandle
deriving DecidableEq

inductive TracingStep where
  /-- Begin to install: check the filter. -/
  | check (config : TracingConfig)
  | claim
  | subscribe
  /-- Begin to remove the handle of an index: leave its span. -/
  | leave (index : Nat)
  | restore
  | release
deriving DecidableEq

/-- The flag and all threads. -/
structure Tracing where
  active : Bool
  threads : Nat → TracingThread

namespace Tracing

/-- No handle anywhere. -/
def initial : Tracing := ⟨false, fun _ => ⟨.idle, [], []⟩⟩

def update (t : Tracing) (id : Nat) (thread : TracingThread) : Tracing :=
  { t with threads := fun i => if i = id then thread else t.threads i }

/-- A step of one thread, with the error it ends in, if it does. A step that does not fit what the
thread is in the middle of is not possible. -/
def stepWith (isFilter : String → Bool) (t : Tracing) (id : Nat) :
    TracingStep → Option (Tracing × Option InstallError)
  | .check config =>
    match (t.threads id).activity with
    | .idle =>
      if isFilter config.logLevel then
        some (t.update id { t.threads id with activity := .checked config }, none)
      else some (t, some (.invalidFilter config.logLevel))
    | _ => none
  | .claim =>
    match (t.threads id).activity with
    | .checked config =>
      if t.active then
        some (t.update id { t.threads id with activity := .idle }, some .alreadyActive)
      else
        some ({ t with active := true }.update id { t.threads id with activity := .claimed config },
          none)
    | _ => none
  | .subscribe =>
    match (t.threads id).activity with
    | .claimed config =>
      let handle : TracingHandle := ⟨config.serviceName⟩
      some (t.update id ⟨.idle, handle :: (t.threads id).handles,
        handle :: (t.threads id).subscribers⟩, none)
    | _ => none
  | .leave index =>
    match (t.threads id).activity, (t.threads id).handles[index]? with
    | .idle, some handle =>
      some (t.update id { t.threads id with
        activity := .left handle, handles := (t.threads id).handles.eraseIdx index }, none)
    | _, _ => none
  | .restore =>
    match (t.threads id).activity with
    | .left handle =>
      some (t.update id { t.threads id with
        activity := .restored handle
        subscribers := (t.threads id).subscribers.erase handle }, none)
    | _ => none
  | .release =>
    match (t.threads id).activity with
    | .restored _ =>
      some ({ t with active := false }.update id { t.threads id with activity := .idle }, none)
    | _ => none

/-- Steps of any threads in a row, each with its thread. A step may end in an error. -/
def interleave (isFilter : String → Bool) (t : Tracing) : List (Nat × TracingStep) → Option Tracing
  | [] => some t
  | (id, s) :: rest =>
    match t.stepWith isFilter id s with
    | none => none
    | some (u, _) => u.interleave isFilter rest

/-- A step of one thread, with the filters of the log. -/
def step (t : Tracing) (id : Nat) (s : TracingStep) : Option (Tracing × Option InstallError) :=
  t.stepWith (fun level => LogFilter.isValid level.toList) id s

/-- Steps of one thread in a row, up to the first that fails. -/
def run (t : Tracing) (id : Nat) : List TracingStep → Option (Tracing × Option InstallError)
  | [] => some (t, none)
  | s :: rest =>
    match t.step id s with
    | none => none
    | some (u, some e) => some (u, some e)
    | some (u, none) => u.run id rest

/-- Install a handle on a thread (`install`), without other threads in between. -/
def install (t : Tracing) (id : Nat) (config : TracingConfig) :
    Option (Tracing × Option InstallError) :=
  t.run id [.check config, .claim, .subscribe]

/-- Remove the latest handle of a thread (`drop`), without other threads in between. -/
def remove (t : Tracing) (id : Nat) : Option (Tracing × Option InstallError) :=
  t.run id [.leave 0, .restore, .release]

end Tracing

end QuilControl
