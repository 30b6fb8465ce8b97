import Capabilities.Proofs.Act.FileCaps

/-!
# Runs over the capabilities of files

A run of operations on the capabilities of files answers as the map of files would,
whatever floors are set in between. So a target is read as the last successful change
left it, and a change that is refused leaves no trace.
-/

namespace Capabilities

open FileAttribute (IsCarried)

namespace Action

/-- The answers to a run of actions and the machine after it, unless one of them aborts the
process. -/
def answerAll : List Action → Machine → Option (List (Except Fault Reply) × Machine)
  | [], s => some ([], s)
  | a :: rest, s =>
      (a.perform s).bind fun reply =>
        (answerAll rest reply.2).map fun later => (reply.1 :: later.1, later.2)

variable {s : Machine}

theorem perform_readFileCaps (hscript : s.kernel.script = []) (target : Target) :
    ∃ attempts, (Action.readFileCaps target).perform s =
      some ((s.fileMap.get target).map (Reply.ofOption .caps), s.counting attempts) := by
  obtain ⟨attempts, hstart⟩ := Act.start_readFileCaps hscript target
  exact ⟨attempts, by rw [perform, run, Act.start_map, hstart]; rfl⟩

theorem perform_setFileCaps (hscript : s.kernel.script = []) {target : Target}
    {caps : Option CapSet} (hfits : (FileOp.put target caps).Fits s.capacity) :
    ∃ s', (Action.setFileCaps target caps).perform s =
        some ((s.fileMap.verdict s.attaches target caps).map fun _ => .done, s') ∧
      s.PutTo s' target caps (s.fileMap.verdict s.attaches target caps) := by
  obtain ⟨s', hstart, hput⟩ := Act.start_setFileCaps hscript hfits
  exact ⟨s', by rw [perform, run, Act.start_map, hstart]; rfl, hput⟩

/-- One operation answers as the map does, and leaves the files as the map after it. -/
theorem exists_perform_fileOp (hscript : s.kernel.script = []) {op : FileOp}
    (hfits : op.Fits s.capacity) :
    ∃ s', op.action.perform s = some ((s.fileMap.perform s.attaches op).1, s') ∧
      s'.kernel = s.kernel ∧ s'.credentials = s.credentials ∧
      s'.fileMap = (s.fileMap.perform s.attaches op).2 := by
  cases op with
  | get target =>
      obtain ⟨attempts, hget⟩ := perform_readFileCaps hscript target
      exact ⟨s.counting attempts, hget, rfl, rfl, rfl⟩
  | put target caps =>
      obtain ⟨s', hset, hput⟩ := perform_setFileCaps hscript hfits
      exact ⟨s', hset, hput.kernel, hput.credentials, hput.fileMap_eq⟩
  | setFloor n => exact ⟨_, rfl, rfl, rfl, rfl⟩

/-- A run of operations answers as a run on the map, whatever floors are set in between. -/
theorem exists_answerAll_fileOps (hscript : s.kernel.script = []) {ops : List FileOp}
    (hfits : ∀ op ∈ ops, op.Fits s.capacity) :
    ∃ s', answerAll (ops.map FileOp.action) s =
        some ((s.fileMap.performAll s.attaches ops).1, s') ∧
      s'.kernel = s.kernel ∧ s'.credentials = s.credentials ∧
      s'.fileMap = (s.fileMap.performAll s.attaches ops).2 := by
  induction ops generalizing s with
  | nil => exact ⟨s, rfl, rfl, rfl, rfl⟩
  | cons op rest ih =>
      obtain ⟨hop, hrest⟩ := List.forall_mem_cons.mp hfits
      obtain ⟨t, hfirst, hkernel, hcredentials, hmap⟩ := exists_perform_fileOp hscript hop
      rw [← Machine.capacity_eq hkernel] at hrest
      obtain ⟨s', hlater, hkernel', hcredentials', hmap'⟩ := ih (hkernel ▸ hscript) hrest
      rw [hmap, Machine.attaches_eq hcredentials] at hlater hmap'
      refine ⟨s', ?_, hkernel'.trans hkernel, hcredentials'.trans hcredentials, hmap'⟩
      rw [List.map_cons, answerAll, hfirst, Option.bind_some, hlater]
      rfl

theorem map_done_eq_ok_iff {outcome : Except Fault Unit} :
    (outcome.map fun _ => Reply.done) = .ok .done ↔ outcome = .ok () := by
  cases outcome <;> simp [Except.map]

theorem map_done_eq_error_iff {outcome : Except Fault Unit} {f : Fault} :
    (outcome.map fun _ => Reply.done) = .error f ↔ outcome = .error f := by
  cases outcome <;> simp [Except.map]

/-- Any run of operations on the capabilities of files comes to an end. Reading a target
after it answers with what the last successful change left there, with its owner or as
nothing, whatever floors were set. A set whose effective flag is neither nothing nor all
that is permitted or inheritable is refused, and so is every change of a name that cannot
be handed over. A refused change leaves the files as they were, taking away what is not there
succeeds, and no change reaches another target. -/
theorem answers_after_fileOps (hscript : s.kernel.script = []) {ops : List FileOp}
    (hfits : ∀ op ∈ ops, op.Fits s.capacity) :
    ∃ answers now, answerAll (ops.map FileOp.action) s = some (answers, now) ∧
      answers.length = ops.length ∧
      (∀ target, ∃ initial first later,
        (Action.readFileCaps target).perform s = some (initial, first) ∧
        (Action.readFileCaps target).perform now =
          some (match lastPut target (ops.zip answers) with
            | some caps => .ok (Reply.ofOption .caps caps)
            | none => initial, later) ∧
        later.files = now.files) ∧
      ∀ target caps, (FileOp.put target caps).Fits s.capacity → ∃ answer later,
        (Action.setFileCaps target caps).perform now = some (answer, later) ∧
        (answer = .ok .done ↔ target.isValid = true ∧
          (∀ x, caps = some x →
            x.effective = ∅ ∨ x.effective = x.permitted ∪ x.inheritable) ∧
          now.files.find? target ≠ none ∧ now.credentials.has Value.setfcap = true) ∧
        (∀ x, caps = some x → x.effective ≠ ∅ → x.effective ≠ x.permitted ∪ x.inheritable →
          answer = .error (if target.isValid then .badValue else .os .invalidArgument) ∧
            later.files = now.files) ∧
        (∀ f, answer = .error f → later.files = now.files) ∧
        (target.isValid = true → caps = none →
          now.files.remove now.credentials target = .error .noData → answer = .ok .done) ∧
        ∀ other, other ≠ target → later.files.find? other = now.files.find? other := by
  obtain ⟨now, hrun, hkernel, hcredentials, hmap⟩ := exists_answerAll_fileOps hscript hfits
  have hscript' : now.kernel.script = [] := hkernel ▸ hscript
  refine ⟨_, now, hrun, FileMap.length_performAll ops, fun target => ?_, fun target caps hput => ?_⟩
  · obtain ⟨first, hfirst⟩ := perform_readFileCaps hscript target
    obtain ⟨later, hlater⟩ := perform_readFileCaps hscript' target
    rw [hmap, FileMap.get_performAll] at hlater
    exact ⟨_, _, _, hfirst, hlater, rfl⟩
  · rw [← Machine.capacity_eq hkernel] at hput
    obtain ⟨later, hanswer, hputTo⟩ := perform_setFileCaps hscript' hput
    have hiff : now.fileMap.verdict now.attaches target caps = .ok () ↔ target.isValid = true ∧
        (∀ x, caps = some x → IsCarried x) ∧ now.files.find? target ≠ none ∧
          now.credentials.has Value.setfcap = true := by
      rw [FileMap.verdict_eq_ok_iff]
      refine and_congr_right fun hvalid => and_congr_right fun _ => ?_
      rw [now.fileMap_of_isValid hvalid, ne_eq, Option.map_eq_none_iff]
      rfl
    refine ⟨_, later, hanswer, map_done_eq_ok_iff.trans hiff, ?_, ?_, ?_, ?_⟩
    · rintro x rfl hempty hall
      have hrefused : now.fileMap.verdict now.attaches target (some x) = _ :=
        FileMap.verdict_of_not_isCarried (not_or.mpr ⟨hempty, hall⟩)
      exact ⟨map_done_eq_error_iff.mpr hrefused, hputTo.refused _ hrefused⟩
    · exact fun f hf => hputTo.refused f (map_done_eq_error_iff.mp hf)
    · rintro hvalid rfl hnoData
      obtain ⟨hfind, hhas⟩ := Files.exists_of_remove_eq_noData hnoData
      exact map_done_eq_ok_iff.mpr (hiff.mpr ⟨hvalid, fun _ h => (by cases h), hfind, hhas⟩)
    · intro other hother
      cases hverdict : now.fileMap.verdict now.attaches target caps with
      | error f => rw [hputTo.refused f hverdict]
      | ok u =>
          obtain ⟨content, -, hfind⟩ := hputTo.attached hverdict
          rw [hfind, if_neg hother]

/-- A privileged process on a kernel with as many values as names. One of its files has no
attribute and one has an attribute that cannot be read. -/
def attachingMachine : Machine :=
  Machine.start
    { version := Abi.third.code, valueCount := 41, boundingSupported := true,
      ambientSupported := true, processes := [], script := [] }
    { effective := Mask.below 41, permitted := Mask.below 41, inheritable := ∅, ambient := ∅,
      bounding := Mask.below 41, secbits := ∅, uid := 0, gid := 0, groups := [] }
    ⟨[(.path "/bin/ping", none), (.descriptor 3, some [0xff])]⟩

/-- Not all that is permitted is effective. -/
def partialSet : CapSet := ⟨Mask.single 0, Mask.ofList [0, 13], ∅, none⟩

/-- A set with an owner is attached under a high floor, after a partial one has been refused. -/
def attachingOps : List FileOp :=
  [.put (.descriptor 3) none, .put (.path "/bin/ping") (some partialSet), .setFloor 8,
    .put (.path "/bin/ping") (some FileAttribute.boundSet), .setFloor 0, .get (.descriptor 3)]

theorem answers_after_fileOps_attachingMachine :
    attachingMachine.kernel.script = [] ∧
    (∀ op ∈ attachingOps, op.Fits attachingMachine.capacity) ∧
    ∃ answers now, answerAll (attachingOps.map FileOp.action) attachingMachine =
        some (answers, now) ∧ answers.length = 6 ∧
      ∃ answer later, (Action.setFileCaps (.path "/bin/ping") (some partialSet)).perform now =
        some (answer, later) ∧ answer = .error .badValue ∧ later.files = now.files := by
  have hpartial : partialSet.fits attachingMachine.capacity = true := by decide +kernel
  have hbound : FileAttribute.boundSet.fits attachingMachine.capacity = true := by decide +kernel
  have hfits : ∀ op ∈ attachingOps, op.Fits attachingMachine.capacity := by
    intro op hop
    simp only [attachingOps, List.mem_cons, List.not_mem_nil, or_false] at hop
    obtain rfl | rfl | rfl | rfl | rfl | rfl := hop
    exacts [trivial, hpartial, trivial, hbound, trivial, trivial]
  obtain ⟨answers, now, hrun, hlength, -, hput⟩ := answers_after_fileOps rfl hfits
  obtain ⟨answer, later, hanswer, -, hrefused, -⟩ :=
    hput (.path "/bin/ping") (some partialSet) hpartial
  obtain ⟨hbad, hsame⟩ := hrefused partialSet rfl (by decide) (by decide)
  have hvalid : Target.isValid (.path "/bin/ping") = true := by decide +kernel
  rw [hvalid, if_pos rfl] at hbad
  exact ⟨rfl, hfits, answers, now, hrun, hlength, answer, later, hanswer, hbad, hsame⟩

/-- The name is looked at before the set: a name that cannot be handed over is refused as
such, although the set could not be attached to any file. -/
theorem setFileCaps_partialSet_zeroPath :
    attachingMachine.kernel.script = [] ∧ partialSet.fits attachingMachine.capacity = true ∧
    partialSet.effective ≠ ∅ ∧
    partialSet.effective ≠ partialSet.permitted ∪ partialSet.inheritable ∧
    (Action.setFileCaps (.path "a\x00b") (some partialSet)).perform attachingMachine =
      some (.error (.os .invalidArgument), attachingMachine) ∧
    (Fault.os .invalidArgument) ≠ .badValue := by
  refine ⟨rfl, by decide +kernel, by decide, by decide, ?_, by decide⟩
  have hvalid : Target.isValid (.path "a\x00b") = false := by decide +kernel
  simp only [perform, run, Act.start_map, Act.setFileCaps, Act.start_bind, Act.start_checkTarget,
    hvalid, Option.bind_some]
  rfl

end Action

end Capabilities
