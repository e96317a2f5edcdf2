import ShellIndex.Command.Arguments

set_option autoImplicit false

/-! # The option for the output

A command line whose report goes to the standard output may be given the option `-o` as well,
wherever an option may stand behind the name of the task. That changes the task it is read as in the
file of the report, and in nothing else (`Invocation.parse_addsOutput`).
-/

namespace ShellIndex.Command

/-! ## Computations that succeed -/

section
variable {α β : Type} {x : Except Refusal α} {f : α → Except Refusal β} {a : α} {b : β}

theorem bind_eq_ok_iff : x >>= f = .ok b ↔ ∃ a, x = .ok a ∧ f a = .ok b := by
  cases x with
  | error refusal => exact ⟨fun h => (nomatch h), fun ⟨_, h, _⟩ => (nomatch h)⟩
  | ok a =>
      constructor
      · exact fun h => ⟨a, rfl, h⟩
      · rintro ⟨_, h, hb⟩
        obtain rfl := Except.ok.inj h
        exact hb

theorem pure_eq_ok_iff {a' : α} : (pure a' : Except Refusal α) = .ok a ↔ a = a' :=
  ⟨fun h => (Except.ok.inj h).symm, fun h => congrArg Except.ok h.symm⟩

theorem unless_eq_ok_iff {refused : Bool} :
    (if refused then throw .usage else x) = .ok a ↔ refused = false ∧ x = .ok a := by
  cases refused with
  | false => exact ⟨fun h => ⟨rfl, h⟩, And.right⟩
  | true => exact ⟨fun h => (nomatch h), fun h => (nomatch h.1)⟩

end

namespace Reading
variable {accepts : Opt → Bool} {r r' : Reading} {arg value : String} {opt : Opt}

/-- The same arguments with `out` given as the file of the report. -/
def writing (r : Reading) (out : String) : Reading := { r with output := some out }

/-! ## One argument

An argument that leaves the output open leaves it open before, and it is read in the same way if the
output is given. -/

theorem has_writing (hopt : opt ≠ .output) (out : String) :
    (r.writing out).has opt = r.has opt := by
  cases opt <;> first | rfl | exact absurd rfl hopt

theorem addFlag_writing (h : r.addFlag opt = .ok r') (hopt : opt.takesValue = false)
    (out : String) : r'.output = r.output ∧ (r.writing out).addFlag opt = .ok (r'.writing out) := by
  have hhas : (r.writing out).has opt = r.has opt := by
    refine has_writing ?_ out
    rintro rfl
    cases hopt
  unfold addFlag at h ⊢
  rw [hhas]
  split at h
  · cases h
  · next hhelp =>
      split at h
      · cases h
      · next hnew =>
          obtain rfl := Except.ok.inj h
          rw [if_neg hhelp, if_neg hnew]
          exact ⟨rfl, rfl⟩

theorem addValue_writing (h : r.addValue opt value = .ok r') (hr' : r'.output = none)
    (out : String) :
    r.output = none ∧ (r.writing out).addValue opt value = .ok (r'.writing out) := by
  unfold addValue at h ⊢
  dsimp only at h ⊢
  split at h
  · cases h
  · next hnew =>
      cases opt with
      | verbose | quiet | help | strict => cases h
      | scope =>
          rw [has_writing (by decide), if_neg hnew]
          cases hscope : readScope value with
          | error refusal =>
              rw [hscope] at h
              cases h
          | ok scope =>
              rw [hscope] at h
              obtain rfl := Except.ok.inj h
              exact ⟨hr', rfl⟩
      | format =>
          rw [has_writing (by decide), if_neg hnew]
          obtain rfl := Except.ok.inj h
          exact ⟨hr', rfl⟩
      | output =>
          -- This option names the file, which no argument does that leaves it open.
          cases hpath : readPath value with
          | error refusal =>
              rw [hpath] at h
              cases h
          | ok path =>
              rw [hpath] at h
              obtain rfl := Except.ok.inj h
              cases hr'
      | utils =>
          rw [has_writing (by decide), if_neg hnew]
          cases hpath : readPath value with
          | error refusal =>
              rw [hpath] at h
              cases h
          | ok path =>
              rw [hpath] at h
              obtain rfl := Except.ok.inj h
              exact ⟨hr', rfl⟩

theorem readLong_writing {text : List Char} (h : r.readLong accepts text = .ok r')
    (hr' : r'.output = none) (out : String) :
    r.output = none ∧ (r.writing out).readLong accepts text = .ok (r'.writing out) := by
  unfold readLong at h ⊢
  dsimp only at h ⊢
  split at h
  · cases h
  · next opt hopt =>
      split at h
      · cases h
      · next haccepts =>
          rw [if_neg haccepts]
          split at h
          · next hrest =>
              split at h
              · next hvalue =>
                  obtain rfl := Except.ok.inj h
                  rw [if_pos hvalue]
                  exact ⟨hr', rfl⟩
              · next hvalue =>
                  rw [if_neg hvalue]
                  obtain ⟨houtput, hflag⟩ := addFlag_writing h (by simpa using hvalue) out
                  exact ⟨houtput ▸ hr', hflag⟩
          · next value hrest =>
              split at h
              · next hvalue =>
                  rw [if_pos hvalue]
                  exact addValue_writing h hr' out
              · cases h

theorem readShort_writing {text : List Char} (h : r.readShort accepts text = .ok r')
    (hr' : r'.output = none) (out : String) :
    r.output = none ∧ (r.writing out).readShort accepts text = .ok (r'.writing out) := by
  induction text generalizing r with
  | nil =>
      obtain rfl := Except.ok.inj h
      exact ⟨hr', rfl⟩
  | cons c rest ih =>
      unfold readShort at h ⊢
      split at h
      · cases h
      · next opt hopt =>
          split at h
          · cases h
          · next haccepts =>
              rw [if_neg haccepts]
              split at h
              · next hvalue =>
                  rw [if_pos hvalue]
                  cases rest with
                  | nil =>
                      obtain rfl := Except.ok.inj h
                      exact ⟨hr', rfl⟩
                  | cons d value => exact addValue_writing h hr' out
              · next hvalue =>
                  rw [if_neg hvalue]
                  split at h
                  · cases h
                  · next r₁ hflag =>
                      obtain ⟨houtput, hflag'⟩ := addFlag_writing hflag (by simpa using hvalue) out
                      obtain ⟨hr₁, hrest⟩ := ih h
                      rw [hflag']
                      exact ⟨houtput ▸ hr₁, hrest⟩

theorem read_writing (h : r.read accepts arg = .ok r') (hr' : r'.output = none) (out : String) :
    r.output = none ∧ (r.writing out).read accepts arg = .ok (r'.writing out) := by
  unfold read at h ⊢
  by_cases honly : r.onlyInputs = true
  · rw [if_pos honly] at h
    obtain rfl := Except.ok.inj h
    exact ⟨hr', if_pos honly⟩
  · rw [if_neg honly] at h
    rw [if_neg (show ¬ (r.writing out).onlyInputs = true from honly),
      show (r.writing out).awaiting = r.awaiting from rfl]
    cases hawaiting : r.awaiting with
    | some opt =>
        rw [hawaiting] at h
        dsimp only at h ⊢
        split at h
        · next hvalue =>
            rw [if_pos hvalue]
            exact addValue_writing h hr' out
        · cases h
    | none =>
        rw [hawaiting] at h
        dsimp only at h ⊢
        split at h
        · obtain rfl := Except.ok.inj h
          exact ⟨hr', rfl⟩
        · exact readLong_writing h hr' out
        · exact readShort_writing h hr' out
        · obtain rfl := Except.ok.inj h
          exact ⟨hr', rfl⟩

/-! ## All arguments -/

theorem foldlM_writing {args : List String} (h : args.foldlM (read accepts) r = .ok r')
    (hr' : r'.output = none) (out : String) :
    r.output = none ∧ args.foldlM (read accepts) (r.writing out) = .ok (r'.writing out) := by
  induction args generalizing r with
  | nil =>
      obtain rfl := Except.ok.inj h
      exact ⟨hr', rfl⟩
  | cons arg args ih =>
      rw [List.foldlM_cons] at h ⊢
      obtain ⟨r₁, hread, h⟩ := bind_eq_ok_iff.mp h
      obtain ⟨hr₁, hrest⟩ := ih h
      obtain ⟨hr, hfirst⟩ := read_writing hread hr₁ out
      exact ⟨hr, bind_eq_ok_iff.mpr ⟨_, hfirst, hrest⟩⟩

/-- An option may stand next. -/
structure Free (r : Reading) : Prop where
  awaiting_eq : r.awaiting = none
  onlyInputs_eq : r.onlyInputs = false

end Reading

/-- How the file of the report is named on a command line. -/
inductive Spells (out : String) : List String → Prop
  | separate (h : Reading.isValue out = true) : Spells out ["-o", out]
  | joined : Spells out ["--output=" ++ out]

namespace Reading
variable {accepts : Opt → Bool} {r : Reading} {out : String} {spelled : List String}

theorem addValue_output (hr : r.output = none) (hout : out ≠ "") :
    r.addValue .output out = .ok { r with awaiting := none, output := some out } := by
  have hempty : out.isEmpty = false := by simpa using hout
  simp [addValue, has, hr, readPath, hempty, Except.map]

/-- An option written with its value. -/
theorem readLong_of_value {name value : List Char} {opt : Opt} (hname : '=' ∉ name)
    (hopt : Opt.ofLong? (String.ofList name) = some opt) (haccepts : accepts opt = true)
    (hvalue : opt.takesValue = true) :
    r.readLong accepts (name ++ '=' :: value) = r.addValue opt (String.ofList value) := by
  have htake : (name ++ '=' :: value).takeWhile (· != '=') = name := by
    have hkeeps : ∀ c ∈ name, (c != '=') = true := by
      rintro c hc
      rw [bne_iff_ne]
      rintro rfl
      exact hname hc
    rw [List.takeWhile_append_of_pos hkeeps]
    simp
  simp only [readLong, htake, hopt, List.drop_left, haccepts, hvalue, Bool.not_true,
    Bool.false_eq_true, if_false, if_true]

/-- Where an option may stand, the file of the report may be named. -/
theorem foldlM_spelled (h : Spells out spelled) (haccepts : accepts .output = true)
    (hfree : r.Free) (hr : r.output = none) (hout : out ≠ "") :
    spelled.foldlM (read accepts) r = .ok (r.writing out) := by
  obtain ⟨hawaiting, honly⟩ := hfree
  have hwriting : ∀ awaiting, { r with awaiting }.addValue .output out = .ok (r.writing out) := by
    intro awaiting
    rw [addValue_output (r := { r with awaiting }) hr hout, writing, ← hawaiting]
  cases h with
  | separate hvalue =>
      have hname : r.read accepts "-o" = .ok { r with awaiting := some .output } := by
        simp [read, honly, hawaiting, readShort, Opt.ofShort?, haccepts, Opt.takesValue]
      have hpath : { r with awaiting := some .output }.read accepts out = .ok (r.writing out) := by
        rw [read, if_neg (by simp [honly])]
        dsimp only
        rw [if_pos hvalue, hwriting]
      rw [List.foldlM_cons, hname]
      show { r with awaiting := some .output }.read accepts out >>= _ = _
      rw [hpath]
      rfl
  | joined =>
      have hargument : ("--output=" ++ out).toList =
          '-' :: '-' :: ("output".toList ++ '=' :: out.toList) := by
        rw [String.toList_append]
        rfl
      have hread : r.read accepts ("--output=" ++ out) = .ok (r.writing out) := by
        rw [read, if_neg (by simp [honly]), hawaiting, hargument]
        show r.readLong accepts ("output".toList ++ '=' :: out.toList) = _
        rw [readLong_of_value (by decide) (by decide) haccepts rfl, String.ofList_toList]
        exact hwriting r.awaiting
      rw [List.foldlM_cons, hread]
      rfl

theorem readAll_eq_ok_iff {args : List String} {r' : Reading} : readAll accepts args = .ok r' ↔
    ∃ r, args.foldlM (read accepts) start = .ok r ∧ r.awaiting = none ∧ r.isConsistent = true ∧
      r' = { r with inputs := r.inputs.reverse } := by
  unfold readAll
  rw [bind_eq_ok_iff]
  refine exists_congr fun r => and_congr_right fun _ => ?_
  show (if r.awaiting.isSome || !r.isConsistent then throw .usage
    else pure { r with inputs := r.inputs.reverse } : Except Refusal Reading) = _ ↔ _
  rw [unless_eq_ok_iff, Bool.or_eq_false_iff, and_assoc, pure_eq_ok_iff]
  simp

theorem readAll_spelled {a b : List String} {r' : Reading}
    (h : readAll accepts (a ++ b) = .ok r') (hr' : r'.output = none)
    (ha : a.foldlM (read accepts) start = .ok r) (hfree : r.Free) (hspelled : Spells out spelled)
    (haccepts : accepts .output = true) (hout : out ≠ "") :
    readAll accepts (a ++ (spelled ++ b)) = .ok (r'.writing out) := by
  obtain ⟨last, hall, hawaiting, hconsistent, rfl⟩ := readAll_eq_ok_iff.mp h
  rw [List.foldlM_append, ha] at hall
  obtain ⟨hr, hb⟩ := foldlM_writing (r := r) hall hr' out
  refine readAll_eq_ok_iff.mpr ⟨last.writing out, ?_, hawaiting, hconsistent, rfl⟩
  rw [List.foldlM_append, ha]
  show (spelled ++ b).foldlM (read accepts) r = _
  rw [List.foldlM_append, foldlM_spelled hspelled haccepts hfree hr hout]
  exact hb

end Reading

/-! ## The task -/

namespace Task
variable {task : Task} {name : TaskName} {r : Reading}

/-- The task has a report whose file may be named, and leaves it to the standard output. -/
def IsPrinted : Task → Prop
  | functions _ _ output | deps _ _ output => output.path = none
  | duplicates _ _ => False

/-- The same task with `out` as the file of the report. -/
def writingTo (out : String) : Task → Task
  | functions inputs scope output => functions inputs scope { output with path := some out }
  | deps utils inputs output => deps utils inputs { output with path := some out }
  | duplicates inputs scope => duplicates inputs scope

theorem ofReading_writing (h : ofReading name r = .ok task) (hprinted : task.IsPrinted)
    (out : String) : name.accepts .output = true ∧ r.output = none ∧
      ofReading name (r.writing out) = .ok (task.writingTo out) := by
  cases name with
  | functions =>
      obtain rfl := Except.ok.inj h
      exact ⟨rfl, hprinted, rfl⟩
  | deps =>
      unfold ofReading at h ⊢
      dsimp only at h ⊢
      rw [show (r.writing out).utils = r.utils from rfl]
      cases hutils : r.utils with
      | none =>
          rw [hutils] at h
          cases h
      | some utils =>
          rw [hutils] at h
          obtain rfl := Except.ok.inj h
          exact ⟨rfl, hprinted, rfl⟩
  | duplicates =>
      obtain rfl := Except.ok.inj h
      exact hprinted.elim

end Task

/-! ## The command line -/

/-- A command line, and the same one with the file of the report named behind the name of the task
where an option may stand. -/
inductive AddsOutput (out : String) : List String → List String → Prop
  | flag {arg : String} {args args' : List String} {c : Char} {text : List Char}
      (harg : arg.toList = '-' :: c :: text) (h : AddsOutput out args args') :
      AddsOutput out (arg :: args) (arg :: args')
  | task {arg : String} {name : TaskName} {a b spelled : List String} {r : Reading}
      (hname : TaskName.parse? arg = some name)
      (hread : a.foldlM (Reading.read name.accepts) Reading.start = .ok r) (hfree : r.Free)
      (hspelled : Spells out spelled) :
      AddsOutput out (arg :: (a ++ b)) (arg :: (a ++ (spelled ++ b)))

namespace Invocation
variable {arg out : String} {args args' : List String} {before : Reading} {inv : Invocation}

theorem parseFrom_flag_iff {c : Char} {text : List Char} (harg : arg.toList = '-' :: c :: text) :
    parseFrom before (arg :: args) = .ok inv ↔ ∃ before',
      before.read acceptsBefore arg = .ok before' ∧ before'.onlyInputs = false ∧
        parseFrom before' args = .ok inv := by
  rw [parseFrom, harg]
  show (before.read acceptsBefore arg >>= fun before' =>
    if before'.onlyInputs then throw .usage else parseFrom before' args) = _ ↔ _
  rw [bind_eq_ok_iff]
  exact exists_congr fun before' => and_congr_right fun _ => unless_eq_ok_iff

theorem parseFrom_of_name {name : TaskName} (hname : TaskName.parse? arg = some name) :
    parseFrom before (arg :: args) = (do
      let r ← Reading.readAll name.accepts args
      let task ← Task.ofReading name r
      if !before.isConsistent then throw .usage
      return ⟨before.has .quiet || r.has .quiet, task⟩) := by
  unfold TaskName.parse? at hname
  split at hname
  · next harg =>
      subst harg
      obtain rfl := Option.some.inj hname
      rfl
  · split at hname
    · next harg =>
        subst harg
        obtain rfl := Option.some.inj hname
        rfl
    · split at hname
      · next harg =>
          subst harg
          obtain rfl := Option.some.inj hname
          rfl
      · cases hname

theorem parseFrom_name_iff {name : TaskName} (hname : TaskName.parse? arg = some name) :
    parseFrom before (arg :: args) = .ok inv ↔ ∃ r task,
      Reading.readAll name.accepts args = .ok r ∧ Task.ofReading name r = .ok task ∧
      before.isConsistent = true ∧ inv = ⟨before.has .quiet || r.has .quiet, task⟩ := by
  rw [parseFrom_of_name hname, bind_eq_ok_iff]
  refine exists_congr fun r => ?_
  rw [bind_eq_ok_iff, ← exists_and_left]
  refine exists_congr fun task => and_congr_right fun _ => and_congr_right fun _ => ?_
  show (if !before.isConsistent then throw .usage
    else pure ⟨before.has .quiet || r.has .quiet, task⟩ : Except Refusal Invocation) = _ ↔ _
  rw [unless_eq_ok_iff, Bool.not_eq_false', pure_eq_ok_iff]

/-- **Naming the file of the report** changes the task in the file of the report, and the command
line in nothing else. -/
theorem parse_addsOutput (h : AddsOutput out args args') (hout : out ≠ "")
    (hinv : parseFrom before args = .ok inv) (hprinted : inv.task.IsPrinted) :
    parseFrom before args' = .ok ⟨inv.quiet, inv.task.writingTo out⟩ := by
  induction h generalizing before with
  | flag harg _ ih =>
      obtain ⟨before', hread, honly, hinv⟩ := (parseFrom_flag_iff harg).mp hinv
      exact (parseFrom_flag_iff harg).mpr ⟨before', hread, honly, ih hinv⟩
  | task hname hread hfree hspelled =>
      obtain ⟨r, task, hall, htask, hconsistent, rfl⟩ := (parseFrom_name_iff hname).mp hinv
      obtain ⟨haccepts, hr, htask'⟩ := Task.ofReading_writing htask hprinted out
      have hall' := Reading.readAll_spelled hall hr hread hfree hspelled haccepts hout
      exact (parseFrom_name_iff hname).mpr ⟨_, _, hall', htask', hconsistent, rfl⟩

/-- Every command line has a place for the file of the report. -/
theorem exists_addsOutput (h : parseFrom before args = .ok inv) (out : String) :
    ∃ args', AddsOutput out args args' := by
  induction args generalizing before with
  | nil => cases h
  | cons arg args ih =>
      rw [parseFrom] at h
      split at h
      · next c text harg =>
          have hflag : parseFrom before (arg :: args) = .ok inv := by
            rw [parseFrom, harg]
            exact h
          obtain ⟨before', -, -, hrest⟩ := (parseFrom_flag_iff harg).mp hflag
          obtain ⟨args', hargs'⟩ := ih hrest
          exact ⟨arg :: args', .flag harg hargs'⟩
      · cases hname : TaskName.parse? arg with
        | none =>
            rw [hname] at h
            dsimp only at h
            split at h
            · cases h
            · cases h
        | some name =>
            -- Directly behind the name of the task an option may always stand.
            exact ⟨_, .task (a := []) hname rfl ⟨rfl, rfl⟩ .joined⟩

end Invocation
end ShellIndex.Command
