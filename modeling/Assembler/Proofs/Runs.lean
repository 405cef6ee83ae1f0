import Assembler.Command.Run
import Assembler.Proofs.Assembled
import Assembler.Proofs.Files
/-!
# What a run does to a disk

A run gives up before it has read its input, or builds what it has read (`Performs`, `Builds`), and each way to end says
which files have been changed: the log file all along, and the output once there is code to write (`Ends.performs`). Without
a log file, a run that fails leaves the disk as it was, and one that succeeds puts the code in place:
`run_writes_output_only`. How command lines and project files are read, and what is logged, is open all the while.
-/

namespace Assembler.Command

open Disk (Changed)

/-! ## Steps of a run -/

/-- A computation on a desk gives a result, or what keeps it from one, and leaves another desk. -/
def Ends {α : Type} (x : ExceptT Fault (StateM Desk) α) (s : Desk) (r : Except Fault α) (s' : Desk) : Prop :=
  x.run.run s = (r, s')

section

variable {α β : Type} {x : ExceptT Fault (StateM Desk) α} {y : StateM Desk α} {f : α → ExceptT Fault (StateM Desk) β}
  {s s' s'' : Desk} {r : Except Fault β}

theorem Ends.of_pure {a : α} {r : Except Fault α} (h : Ends (pure a) s r s') : r = .ok a ∧ s' = s := by
  cases h
  exact ⟨rfl, rfl⟩

theorem Ends.of_throw {fault : Fault} {r : Except Fault α} (h : Ends (throw fault) s r s') : r = .error fault ∧ s' = s := by
  cases h
  exact ⟨rfl, rfl⟩

theorem Ends.of_lift {r : Except Fault α} (h : Ends (liftM y) s r s') : ∃ a, y.run s = (a, s') ∧ r = .ok a := by
  cases h
  exact ⟨(y.run s).1, rfl, rfl⟩

/-- What comes after a step is done if the step gives something. -/
theorem Ends.of_bind (h : Ends (x >>= f) s r s'') :
    (∃ fault, Ends x s (.error fault) s'' ∧ r = .error fault) ∨ ∃ a s', Ends x s (.ok a) s' ∧ Ends (f a) s' r s'' := by
  rw [Ends, ExceptT.run_bind, StateT.run_bind] at h
  obtain ⟨found, s', hx⟩ : ∃ found s', x.run.run s = (found, s') := ⟨_, _, rfl⟩
  rw [hx] at h
  cases found with
  | error fault =>
    cases h
    exact .inl ⟨fault, hx, rfl⟩
  | ok a => exact .inr ⟨a, s', hx, h⟩

/-- A step that only looks at the desk and writes to it always gives something. -/
theorem Ends.of_lift_bind (h : Ends (liftM y >>= f) s r s'') : ∃ a s', y.run s = (a, s') ∧ Ends (f a) s' r s'' := by
  rcases h.of_bind with ⟨fault, hlift, -⟩ | ⟨a, s', hlift, hrest⟩
  · obtain ⟨a, -, hr⟩ := hlift.of_lift
    cases hr
  · obtain ⟨a', hrun, ha⟩ := hlift.of_lift
    cases ha
    exact ⟨a, s', hrun, hrest⟩

end

/-! ## Effects -/

variable {s s' : Desk}

/-- Reading a file leaves the desk as it is. -/
theorem read_eq {path : String} {found : Except FileFault (List UInt8)}
    (h : (Machine.read path : StateM Desk (Except FileFault (List UInt8))).run s = (found, s')) :
    found = s.disk.read path ∧ s' = s := by
  have hrun : (s.disk.read path, s) = (found, s') := h
  exact ⟨(Prod.mk.inj hrun).1.symm, (Prod.mk.inj hrun).2.symm⟩

/-- A change of a file is that of the disk, or fails as it does. -/
theorem change_cases {path : String} {f : List UInt8 → List UInt8} {r : Except FileFault Unit}
    (h : (Desk.change path f).run s = (r, s')) :
    (∃ fault, s.disk.change path f = .error fault ∧ r = .error fault ∧ s' = s) ∨
      (s.disk.change path f = .ok s'.disk ∧ r = .ok ()) := by
  simp only [Desk.change, modifyGet, MonadStateOf.modifyGet, StateT.run, StateT.modifyGet] at h
  cases hchange : s.disk.change path f with
  | error fault =>
    rw [hchange] at h
    cases h
    exact .inl ⟨fault, rfl, rfl, rfl⟩
  | ok disk =>
    rw [hchange] at h
    cases h
    exact .inr ⟨rfl, rfl⟩

theorem changed_of_change (path : String) (f : List UInt8 → List UInt8) (s : Desk) :
    Changed [path] s.disk ((Desk.change path f).run s).2.disk := by
  obtain ⟨r, s', hrun⟩ : ∃ r s', (Desk.change path f).run s = (r, s') := ⟨_, _, rfl⟩
  rw [hrun]
  rcases change_cases hrun with ⟨fault, -, -, rfl⟩ | ⟨hchange, -⟩
  · exact .refl
  · exact .step .refl List.mem_cons_self hchange

theorem changed_of_forM {paths : List String} {act : Event → StateM Desk Unit} {events : List Event} {done : Unit}
    (hact : ∀ e s s' done, (act e).run s = (done, s') → Changed paths s.disk s'.disk)
    (h : (events.forM act).run s = (done, s')) : Changed paths s.disk s'.disk := by
  induction events generalizing s with
  | nil =>
    cases h
    exact .refl
  | cons e rest ih =>
    have hcons : ((e :: rest).forM act).run s = (rest.forM act).run ((act e).run s).2 := rfl
    rw [hcons] at h
    exact .trans (hact e s _ _ rfl) (ih h)

/-- A line of a log changes the file that it is added to. -/
theorem changed_of_logLine {path : String} {line : Nat → Event → String} {e : Event} {done : Unit}
    (h : (logLine (fun text => discard (Machine.append path (Text.Utf8.encode text.toList))) line e :
      StateM Desk Unit).run s = (done, s')) : Changed [path] s.disk s'.disk := by
  let told : Desk := { s with clock := s.clock.tail }
  have hrun : s' = ((Desk.change path (· ++ Text.Utf8.encode (line (s.clock.headD 0) e).toList)).run told).2 :=
    (Prod.mk.inj h).2.symm
  rw [hrun]
  exact changed_of_change path _ told

theorem changed_of_logEvent {j : Journal} {e : Event} {done : Unit}
    (h : (logEvent j e : StateM Desk Unit).run s = (done, s')) : Changed j.file.toList s.disk s'.disk := by
  let told : Desk := { s with err := s.err ++ j.line true (s.clock.headD 0) e, clock := s.clock.tail }
  have htold : (logLine Machine.err (j.line true) e : StateM Desk Unit).run s = ((), told) := rfl
  unfold logEvent at h
  split at h
  · rw [StateT.run_bind, htold] at h
    cases hfile : j.file with
    | none =>
      rw [hfile] at h
      cases h
      exact .refl
    | some path =>
      rw [hfile] at h
      exact changed_of_logLine (s := told) h
  · cases h
    exact .refl

/-- Logging changes the file that is logged to, if any. -/
theorem changed_of_log {j : Journal} {events : List Event} {done : Unit}
    (h : (log j events : StateM Desk Unit).run s = (done, s')) : Changed j.file.toList s.disk s'.disk :=
  changed_of_forM (fun _ _ _ _ hone => changed_of_logEvent hone) h

/-! ## Projects -/

variable {c : Conventions}

/-- The project that a file describes. -/
def projectAt (c : Conventions) (d : Disk) (path : String) : Except Fault Project :=
  match d.read path with
  | .error fault => .error (.read path fault)
  | .ok bytes =>
    match Text.Utf8.decode? bytes with
    | none => .error (.read path .notUtf8)
    | some text =>
      match c.project text with
      | .error reason => .error (.project path reason)
      | .ok project => .ok project

/-- The project of a command line, on a disk. -/
def projectOn (c : Conventions) (d : Disk) (a : Arguments) : Except Fault Project :=
  match a.config with
  | none => .ok {}
  | some path => projectAt c d path

/-- Reading a project leaves the desk as it is. -/
theorem Ends.of_readProject {path : String} {r : Except Fault Project} (h : Ends (readProject c path) s r s') :
    r = projectAt c s.disk path ∧ s' = s := by
  obtain ⟨found, s₁, hread, hrest⟩ := Ends.of_lift_bind h
  obtain ⟨rfl, rfl⟩ := read_eq hread
  unfold projectAt
  cases hbytes : s₁.disk.read path with
  | error fault =>
    rw [hbytes] at hrest
    exact hrest.of_throw
  | ok bytes =>
    rw [hbytes] at hrest
    dsimp only at hrest ⊢
    cases htext : Text.Utf8.decode? bytes with
    | none =>
      rw [htext] at hrest
      exact hrest.of_throw
    | some text =>
      rw [htext] at hrest
      dsimp only at hrest ⊢
      cases hproject : c.project text with
      | error reason =>
        rw [hproject] at hrest
        exact hrest.of_throw
      | ok project =>
        rw [hproject] at hrest
        exact hrest.of_pure

theorem Ends.of_project {a : Arguments} {r : Except Fault Project} (h : Ends (project c a) s r s') :
    r = projectOn c s.disk a ∧ s' = s := by
  unfold project at h
  unfold projectOn
  cases hconfig : a.config with
  | none =>
    rw [hconfig] at h
    exact h.of_pure
  | some path =>
    rw [hconfig] at h
    exact h.of_readProject

/-! ## Runs -/

/-- The log is open: the project is known, and nothing but the log file has been changed. -/
structure Opens (c : Conventions) (a : Arguments) (d : Disk) (p : Project) (d' : Disk) : Prop where
  project : projectOn c d a = .ok p
  log : Changed a.logFile.toList d d'

/-- The source has been read. -/
structure Loads (c : Conventions) (a : Arguments) (d : Disk) (p : Project) (d' : Disk) (source : Source) : Prop extends Opens c a d p d' where
  input : input? a p (projectDirectory a) = some source.file
  bytes : d'.read source.file = .ok source.bytes

/-- The ways in which building to an output ends, by what comes of the source: the log file is changed all along, and the
output once there is code to write. -/
inductive Builds (files : List String) (output : String) (d : Disk) : Except Failure Assembly → Except Fault Nat → Disk → Prop
  | rejected {failure : Failure} {d' : Disk} (hlog : Changed files d d') : Builds files output d (.error failure) (.ok 1) d'
  | unwritten {assembly : Assembly} {d' : Disk} {fault : FileFault} (hlog : Changed files d d')
      (hwrite : d'.change output (fun _ => assembly.chunk.code) = .error fault) :
      Builds files output d (.ok assembly) (.error (.write output fault)) d'
  | written {assembly : Assembly} {d₁ d₂ d₃ : Disk} (hlog : Changed files d d₁)
      (hwrite : d₁.change output (fun _ => assembly.chunk.code) = .ok d₂) (hlog' : Changed files d₂ d₃) :
      Builds files output d (.ok assembly) (.ok 0) d₃

/-- The ways in which a command ends. -/
inductive Performs (c : Conventions) (a : Arguments) (d : Disk) : Except Fault Nat → Disk → Prop
  | unsettled {fault : Fault} (hproject : projectOn c d a = .error fault) : Performs c a d (.error fault) d
  | unlogged {p : Project} {path : String} {fault : FileFault} (hproject : projectOn c d a = .ok p)
      (hfile : a.logFile = some path) (hopen : d.change path (· ++ []) = .error fault) :
      Performs c a d (.error (.logFile fault)) d
  | missing {p : Project} {d' : Disk} (hopens : Opens c a d p d') (hinput : input? a p (projectDirectory a) = none) :
      Performs c a d (.error .missingInput) d'
  | unread {p : Project} {d' : Disk} {path : String} {fault : FileFault} (hopens : Opens c a d p d')
      (hinput : input? a p (projectDirectory a) = some path) (hread : d'.read path = .error fault) :
      Performs c a d (.error (.read path fault)) d'
  | built {p : Project} {d₁ d₂ : Disk} {source : Source} {r : Except Fault Nat} (hloads : Loads c a d p d₁ source)
      (hbuilds : Builds a.logFile.toList (output a p (projectDirectory a) source.file) d₁
        (source.assemble (settings a p)).1 r d₂) : Performs c a d r d₂

theorem Ends.of_openLog {file : Option String} {r : Except Fault Unit} (h : Ends (openLog file) s r s') :
    (r = .ok () ∧ Changed file.toList s.disk s'.disk) ∨
      ∃ path fault, file = some path ∧ s.disk.change path (· ++ []) = .error fault ∧ r = .error (.logFile fault) ∧ s' = s := by
  cases file with
  | none =>
    obtain ⟨rfl, rfl⟩ := h.of_pure
    exact .inl ⟨rfl, .refl⟩
  | some path =>
    obtain ⟨found, s₁, hrun, hrest⟩ := Ends.of_lift_bind h
    rcases change_cases hrun with ⟨fault, hchange, rfl, rfl⟩ | ⟨hchange, rfl⟩
    · obtain ⟨rfl, rfl⟩ := hrest.of_throw
      exact .inr ⟨path, fault, rfl, hchange, rfl, rfl⟩
    · obtain ⟨rfl, rfl⟩ := hrest.of_pure
      exact .inl ⟨rfl, .step .refl List.mem_cons_self hchange⟩

/-- Complaining changes the log file only. -/
theorem changed_of_complain {j : Journal} {limit : Nat} {source : Source} {failure : Failure}
    {status : Nat} (h : (complain (log j) limit source failure : StateM Desk Nat).run s = (status, s')) :
    status = 1 ∧ Changed j.file.toList s.disk s'.disk := by
  obtain ⟨done, s₁, hlogged, hshown⟩ : ∃ done s₁, (log j [event .debug "Assembly failed"
      [("phase", .text failure.phase.name), ("count", .nat failure.count)]] : StateM Desk Unit).run s = (done, s₁) ∧
      (1, { s₁ with out := s₁.out ++ reportText failure limit, err := s₁.err ++ excerptText failure limit source }) =
        (status, s') := ⟨_, _, rfl, h⟩
  have hlog := changed_of_log hlogged
  cases hshown
  exact ⟨rfl, hlog⟩

/-- What is assembled is written, unless the disk does not let it be. -/
theorem Ends.of_deliver {j : Journal} {settings : Settings} {input output : String}
    {assembly : Assembly} {d : Disk} {r : Except Fault Nat} (hlog : Changed j.file.toList d s.disk)
    (h : Ends (deliver (log j) settings input output assembly) s r s') :
    Builds j.file.toList output d (.ok assembly) r s'.disk := by
  obtain ⟨done, s₁, hout, hwritten⟩ := Ends.of_lift_bind h
  cases hout
  obtain ⟨found, s₂, hwrite, hlast⟩ := Ends.of_lift_bind hwritten
  rcases change_cases hwrite with ⟨fault, hchange, rfl, rfl⟩ | ⟨hchange, rfl⟩
  · obtain ⟨rfl, rfl⟩ := hlast.of_throw
    exact .unwritten hlog hchange
  · obtain ⟨done, s₃, hlogged, hdone⟩ := Ends.of_lift_bind hlast
    obtain ⟨rfl, rfl⟩ := hdone.of_pure
    exact .written hlog hchange (changed_of_log hlogged)

theorem Ends.of_build {j : Journal} {settings : Settings} {source : Source} {output : String}
    {r : Except Fault Nat} (h : Ends (build (log j) settings source output) s r s') :
    Builds j.file.toList output s.disk (source.assemble settings).1 r s'.disk := by
  unfold build at h
  -- What comes of the source is left closed: its definition would be unfolded at every step below.
  generalize source.assemble settings = outcome at h ⊢
  obtain ⟨result, events⟩ := outcome
  obtain ⟨done, s₁, hbegun, hrest⟩ := Ends.of_lift_bind h
  obtain ⟨done, s₂, hlogged, hlast⟩ := Ends.of_lift_bind hrest
  have hlog : Changed j.file.toList s.disk s₂.disk := (changed_of_log hbegun).trans (changed_of_log hlogged)
  cases result with
  | error failure =>
    obtain ⟨status, hrun, rfl⟩ := hlast.of_lift
    obtain ⟨rfl, hlog'⟩ := changed_of_complain hrun
    exact .rejected (hlog.trans hlog')
  | ok assembly => exact hlast.of_deliver hlog

theorem Ends.performs {a : Arguments} {r : Except Fault Nat} (h : Ends (perform c a) s r s') :
    Performs c a s.disk r s'.disk := by
  rcases Ends.of_bind h with ⟨fault, hproject, rfl⟩ | ⟨p, s₁, hproject, hafter⟩
  · obtain ⟨hfault, rfl⟩ := hproject.of_project
    exact .unsettled hfault.symm
  -- The project is read before the log file is opened, so it is that of the disk as it was.
  obtain ⟨hp, rfl⟩ := hproject.of_project
  rcases Ends.of_bind hafter with ⟨fault, hopen, rfl⟩ | ⟨done, s₂, hopen, hafter⟩
  · rcases hopen.of_openLog with ⟨⟨⟩, -⟩ | ⟨path, fault', hfile, hchange, hr, rfl⟩
    cases hr
    exact .unlogged hp.symm hfile hchange
  have hopens : Opens c a s₁.disk p s₂.disk := by
    rcases hopen.of_openLog with ⟨-, hlog⟩ | ⟨path, fault, -, -, hr, -⟩
    · exact ⟨hp.symm, hlog⟩
    · cases hr
  split at hafter
  · rename_i hinput
    obtain ⟨rfl, rfl⟩ := hafter.of_throw
    exact .missing hopens hinput
  · rename_i path hinput
    obtain ⟨found, s₃, hread, hafter⟩ := Ends.of_lift_bind hafter
    obtain ⟨rfl, rfl⟩ := read_eq hread
    split at hafter
    · rename_i fault hfault
      obtain ⟨rfl, rfl⟩ := hafter.of_throw
      exact .unread hopens hinput hfault
    · rename_i bytes hbytes
      have hloads : Loads c a s₁.disk p s₃.disk ⟨path, bytes⟩ := ⟨hopens, hinput, hbytes⟩
      exact .built hloads hafter.of_build

/-- The exit status of a command that ends. -/
def status : Except Fault Nat → Nat
  | .ok status => status
  | .error _ => 1

theorem performs_of_run {args : List String} {a : Arguments} {n : Nat} (h : c.arguments args = .run a)
    (hrun : (runWith c args : StateM Desk Nat).run s = (n, s')) : ∃ r, Performs c a s.disk r s'.disk ∧ n = status r := by
  obtain ⟨r, s₁, hperform⟩ : ∃ r s₁, Ends (perform c a) s r s₁ := ⟨_, _, rfl⟩
  have hended : (runWith c args : StateM Desk Nat).run s = match r with
      | .ok status => (status, s₁)
      | .error fault => (1, { s₁ with err := s₁.err ++ ("Error: " ++ fault.message ++ "\n") }) := by
    rw [runWith, h]
    simp only
    rw [StateT.run_bind, hperform]
    cases r <;> rfl
  rw [hended] at hrun
  refine ⟨r, ?_, ?_⟩
  · cases r <;> cases hrun <;> exact hperform.performs
  · cases r <;> cases hrun <;> rfl

/-- A command line that is not understood changes nothing on the disk. -/
theorem run_of_misuse {args : List String} {text : String} {n : Nat} (h : c.arguments args = .misuse text)
    (hrun : (runWith c args : StateM Desk Nat).run s = (n, s')) : n = 2 ∧ s'.disk = s.disk := by
  rw [runWith, h] at hrun
  cases hrun
  exact ⟨rfl, rfl⟩

/-- Whatever a run changes, it changes through its output path or to log it. -/
theorem Performs.changed {a : Arguments} {d d' : Disk} {p : Project} {path : String} {r : Except Fault Nat}
    (h : Performs c a d r d') (hproject : projectOn c d a = .ok p) (hinput : input? a p (projectDirectory a) = some path) :
    Changed (output a p (projectDirectory a) path :: a.logFile.toList) d d' := by
  have hmono {d d' : Disk} (h : Changed a.logFile.toList d d') :
      Changed (output a p (projectDirectory a) path :: a.logFile.toList) d d' := h.mono (List.subset_cons_self ..)
  cases h with
  | unsettled => exact .refl
  | unlogged => exact .refl
  | missing hopens => exact hmono hopens.log
  | unread hopens => exact hmono hopens.log
  | @built p' _ _ source _ hloads hbuilds =>
    cases hloads.project.symm.trans hproject
    cases hloads.input.symm.trans hinput
    refine (hmono hloads.log).trans ?_
    generalize (source.assemble (settings a p)).1 = result at hbuilds
    cases hbuilds with
    | rejected hlog => exact hmono hlog
    | unwritten hlog => exact hmono hlog
    | written hlog hwrite hlog' => exact ((hmono hlog).step List.mem_cons_self hwrite).trans (hmono hlog')

/-! ## Runs without a log file -/

/-- A command line leads from a file to another one, and the first is assembled to some code, whatever the settings. -/
structure Compiles (c : Conventions) (d : Disk) (a : Arguments) (input out : String) (code : List UInt8) : Prop where
  paths : ∃ p, projectOn c d a = .ok p ∧ input? a p (projectDirectory a) = some input ∧
    output a p (projectDirectory a) input = out
  code : ∃ bytes, d.read input = .ok bytes ∧
    ∀ settings, ∃ assembly, ((⟨input, bytes⟩ : Source).assemble settings).1 = .ok assembly ∧ assembly.chunk.code = code

section

variable {a : Arguments} {d d' : Disk} {p : Project} {source : Source} {r : Except Fault Nat} {input out : String}
  {code : List UInt8}

/-- Without a log file, logging changes nothing. -/
theorem eq_of_plain (hplain : a.logFile = none) (h : Changed a.logFile.toList d d') : d' = d := by
  rw [hplain] at h
  exact h.eq_of_nil

theorem Loads.compiles {assembly : Assembly} (h : Loads c a d p d' source) (hplain : a.logFile = none)
    (hassembly : (source.assemble (settings a p)).1 = .ok assembly) :
    Compiles c d a source.file (output a p (projectDirectory a) source.file) assembly.chunk.code := by
  obtain rfl := eq_of_plain hplain h.log
  exact ⟨⟨p, h.project, h.input, rfl⟩, source.bytes, h.bytes, source.exists_code_eq hassembly⟩

/-- A run that does not succeed leaves the disk as it is. -/
theorem Performs.eq_of_status_ne (h : Performs c a d r d') (hplain : a.logFile = none) (hstatus : status r ≠ 0) : d' = d := by
  cases h with
  | unsettled => rfl
  | unlogged => rfl
  | missing hopens => exact eq_of_plain hplain hopens.log
  | unread hopens => exact eq_of_plain hplain hopens.log
  | @built p _ _ source _ hloads hbuilds =>
    obtain rfl := eq_of_plain hplain hloads.log
    generalize (source.assemble (settings a p)).1 = result at hbuilds
    cases hbuilds with
    | rejected hlog => exact eq_of_plain hplain hlog
    | unwritten hlog => exact eq_of_plain hplain hlog
    | written => exact absurd rfl hstatus

/-- A run that succeeds puts the code where it is to be written, and nothing else. -/
theorem Performs.exists_compiles (h : Performs c a d r d') (hplain : a.logFile = none) (hstatus : status r = 0) :
    ∃ input out code names, Compiles c d a input out code ∧ d.place? out = some names ∧ d' = d.put names code := by
  cases h with
  | @built p _ _ source _ hloads hbuilds =>
    generalize hresult : (source.assemble (settings a p)).1 = result at hbuilds
    cases hbuilds with
    | written hlog hwrite hlog' =>
      have hcompiles := hloads.compiles hplain hresult
      rw [eq_of_plain hplain hlog, eq_of_plain hplain hloads.log] at hwrite
      obtain ⟨names, hplace, -, rfl⟩ := Disk.change_eq_ok_iff.1 hwrite
      exact ⟨_, _, _, names, hcompiles, hplace, eq_of_plain hplain hlog'⟩
    | _ => cases hstatus
  | _ => cases hstatus

/-- A run succeeds if there is something to assemble and somewhere to write it. -/
theorem Performs.status_of_compiles {names : List String} (h : Performs c a d r d') (hplain : a.logFile = none)
    (hcompiles : Compiles c d a input out code) (hplace : d.place? out = some names)
    (hallowed : d.refusal? .write names = none) : status r = 0 := by
  obtain ⟨⟨p', hproject', hinput', rfl⟩, bytes, hread', hcode⟩ := hcompiles
  cases h with
  | unsettled hproject => cases hproject.symm.trans hproject'
  | unlogged hproject hlogFile => cases hlogFile.symm.trans hplain
  | missing hopens hinput =>
    cases hopens.project.symm.trans hproject'
    cases hinput.symm.trans hinput'
  | unread hopens hinput hread =>
    cases hopens.project.symm.trans hproject'
    cases hinput.symm.trans hinput'
    rw [eq_of_plain hplain hopens.log] at hread
    cases hread.symm.trans hread'
  | @built _ _ _ source _ hloads hbuilds =>
    have hbytes := hloads.bytes
    rw [eq_of_plain hplain hloads.log] at hbytes
    cases hloads.project.symm.trans hproject'
    obtain rfl : source.file = input := Option.some.inj (hloads.input.symm.trans hinput')
    obtain rfl : source.bytes = bytes := Except.ok.inj (hbytes.symm.trans hread')
    obtain ⟨assembly, hassembly, -⟩ := hcode (settings a p')
    rw [hassembly] at hbuilds
    cases hbuilds with
    | unwritten hlog hwrite =>
      rw [eq_of_plain hplain hlog, eq_of_plain hplain hloads.log] at hwrite
      cases hwrite.symm.trans (Disk.change_eq_ok_iff.2 ⟨names, hplace, hallowed, rfl⟩)
    | written => rfl

end

/-- Neither the help nor the version is asked for, nor a log file. -/
def IsPlain : Request → Prop
  | .run a => a.logFile = none
  | .misuse _ => True
  | .help _ | .version _ => False

instance : DecidablePred IsPlain
  | .run a => inferInstanceAs (Decidable (a.logFile = none))
  | .misuse _ => .isTrue trivial
  | .help _ | .version _ => .isFalse id

/-- However command lines and project files are read: unless it asks for a log file, the help or the version, a command
line that fails leaves the disk as it is. One that succeeds rewrites the file that its output path leads to and nothing
else, and this then holds the code that its input is assembled to, which does not depend on any settings. It succeeds if
there is such code and a file to write it to. -/
theorem run_writes_output_only {c : Conventions} {args : List String} {before after : Desk} {n : Nat}
    (h : IsPlain (c.arguments args)) (hrun : (runWith c args : StateM Desk Nat).run before = (n, after)) :
    (n ≠ 0 → after.disk = before.disk) ∧
    (n = 0 → ∃ a input out code names id, c.arguments args = .run a ∧ Compiles c before.disk a input out code ∧
      before.disk.place? out = some names ∧ Disk.Rewrites before.disk names id code after.disk ∧ after.disk.LeadsTo out id ∧
      (before.disk.refusal? .read names = none → after.disk.read out = .ok code)) ∧
    ∀ a input out code names, c.arguments args = .run a → Compiles c before.disk a input out code →
      before.disk.place? out = some names → before.disk.refusal? .write names = none → n = 0 := by
  cases hread : c.arguments args with
  | help text => rw [hread] at h; cases h
  | version text => rw [hread] at h; cases h
  | misuse text =>
    obtain ⟨rfl, hdisk⟩ := run_of_misuse hread hrun
    refine ⟨fun _ => hdisk, fun hzero => ?_, ?_⟩
    · cases hzero
    · rintro a input out code names hsame
      cases hsame
  | run a =>
    rw [hread] at h
    obtain ⟨r, hperforms, rfl⟩ := performs_of_run hread hrun
    refine ⟨fun hne => hperforms.eq_of_status_ne h hne, fun hzero => ?_, ?_⟩
    · obtain ⟨input, out, code, names, hcompiles, hplace, hdisk⟩ := hperforms.exists_compiles h hzero
      have hrewrites : Disk.Rewrites before.disk names _ code after.disk := hdisk ▸ Disk.rewrites_put hplace code
      exact ⟨a, input, out, code, names, _, rfl, hcompiles, hplace, hrewrites, hrewrites.leadsTo hplace,
        hrewrites.read_eq hplace⟩
    · rintro a' input out code names hsame hcompiles hplace hallowed
      cases hsame
      exact hperforms.status_of_compiles h hcompiles hplace hallowed

/-- A jump is assembled with a listing and all that can be logged, and is written through a link to a file with another
name; a file that is not there is not. -/
theorem run_writes_output_only_of_jump :
    let at_ (name : String) : List String := Disk.workingDirectory ++ [name]
    let disk : Disk := {
      entries := [(at_ "x.asm", .file 0), (at_ "x.bin", .link "old"), (at_ "old", .file 1), (at_ "older", .file 1)]
      contents := [(0, [106, 109, 112, 32, 37, 51, 10])] }
    let args := ["x.asm", "--dump-bytecode", "--log-level", "trace"]
    let asked := Conventions.standard.arguments
    (∃ after : Desk, (runWith .standard args : StateM Desk Nat).run { disk } = (0, after) ∧ IsPlain (asked args) ∧
      ∃ a input out code names id, asked args = .run a ∧ Compiles .standard disk a input out code ∧
        disk.place? out = some names ∧ Disk.Rewrites disk names id code after.disk ∧
        after.disk.read "older" = .ok [64, 2, 3, 0, 0, 0, 240]) ∧
    ∃ after : Desk, (runWith .standard ["y.asm"] : StateM Desk Nat).run { disk } = (1, after) ∧ IsPlain (asked ["y.asm"]) ∧
      after.disk = disk := by
  intro at_ disk args asked
  have hplain : IsPlain (asked args) := by decide +kernel
  have hplain' : IsPlain (asked ["y.asm"]) := by decide +kernel
  obtain ⟨n, after, hrun⟩ : ∃ n after, (runWith .standard args : StateM Desk Nat).run { disk } = (n, after) := ⟨_, _, rfl⟩
  obtain ⟨n', after', hrun'⟩ : ∃ n after, (runWith .standard ["y.asm"] : StateM Desk Nat).run { disk } = (n, after) :=
    ⟨_, _, rfl⟩
  have hzero : ((runWith .standard args : StateM Desk Nat).run { disk }).1 = 0 := by decide +kernel
  have hone : ((runWith .standard ["y.asm"] : StateM Desk Nat).run { disk }).1 = 1 := by decide +kernel
  have holder : ((runWith .standard args : StateM Desk Nat).run { disk }).2.disk.read "older" =
      .ok [64, 2, 3, 0, 0, 0, 240] := by decide +kernel
  rw [hrun] at hzero holder
  rw [hrun'] at hone
  obtain rfl : n = 0 := hzero
  obtain rfl : n' = 1 := hone
  obtain ⟨a, input, out, code, names, id, hread, hcompiles, hplace, hrewrites, -⟩ :=
    (run_writes_output_only hplain hrun).2.1 rfl
  exact ⟨⟨after, hrun, hplain, a, input, out, code, names, id, hread, hcompiles, hplace, hrewrites, holder⟩,
    after', hrun', hplain', (run_writes_output_only hplain' hrun').1 (by decide)⟩

end Assembler.Command
