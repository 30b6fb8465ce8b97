import Capabilities.Proofs.Act.FileMap
import Capabilities.Proofs.Act.Reading
import Capabilities.Proofs.Machine.Reachability

/-!
# The capabilities of a file as an entry of a map

Where no failure is scripted, each operation on the capabilities of a file answers
as the map of files does, and leaves the files as the map is after it.
-/

namespace Capabilities

open FileAttribute (IsCarried)

namespace FileAttribute

/-- What reading gives for a file with an attribute or with none. -/
def reading (c : Capacity) : Option Bytes → Except Fault (Option CapSet)
  | none => .ok none
  | some data =>
      if maxSize < data.length then .error (.os .rangeExceeded) else (decode c data).map some

theorem Revision.size_le (r : Revision) : r.size ≤ maxSize := by
  cases r <;> simp [Revision.size, maxSize]

/-- A set that is carried is read again from the bytes that any floor gives. -/
theorem exists_encode_reading {c : Capacity} {s : CapSet} (hs : s.fits c = true)
    (h : IsCarried s) (floor : Nat) :
    ∃ data, encode c floor s = .ok data ∧ reading c (some data) = .ok (some s) := by
  obtain ⟨data, hdata, hlen, hback⟩ := decode_of_isCarried hs h floor
  have hsize : ¬ maxSize < data.length := Nat.not_lt.mpr (hlen ▸ Revision.size_le _)
  exact ⟨data, hdata, by rw [reading, if_neg hsize, hback]; rfl⟩

end FileAttribute

namespace Files

theorem missing_ne_noData (target : Target) : target.missing ≠ Errno.noData := by
  cases target <;> simp [Target.missing, Errno.noSuchFile, Errno.badDescriptor, Errno.noData]

/-- Only at an existing file, and only for a process that may remove attributes, does the
kernel answer that there is none. -/
theorem exists_of_remove_eq_noData {files : Files} {cr : Credentials} {target : Target}
    (h : files.remove cr target = .error .noData) :
    files.find? target ≠ none ∧ cr.has Value.setfcap = true := by
  rw [remove] at h
  cases hfind : files.find? target with
  | none =>
      rw [hfind] at h
      exact absurd (Except.error.inj h) (missing_ne_noData target)
  | some content =>
      rw [hfind] at h
      refine ⟨by simp, ?_⟩
      cases hhas : cr.has Value.setfcap with
      | true => rfl
      | false =>
          rw [hhas] at h
          exact absurd (Except.error.inj h) (by decide)

end Files

namespace Machine

/-- The files of a machine as a map. -/
def fileMap (s : Machine) : FileMap := fun target =>
  if target.isValid then (s.files.find? target).map (FileAttribute.reading s.capacity)
  else some (.error (.os .invalidArgument))

/-- Whether the calling thread may change the capabilities of files. -/
def attaches (s : Machine) : Bool := s.credentials.has Value.setfcap

theorem fileMap_of_isValid (s : Machine) {target : Target} (h : target.isValid = true) :
    s.fileMap target = (s.files.find? target).map (FileAttribute.reading s.capacity) := if_pos h

/-- What an attempt to change the capabilities of a target makes of a machine: nothing if it
is refused, and otherwise the target is read as it was to be, and no other file changes. -/
structure PutTo (s s' : Machine) (target : Target) (caps : Option CapSet)
    (outcome : Except Fault Unit) : Prop where
  kernel : s'.kernel = s.kernel
  credentials : s'.credentials = s.credentials
  refused : ∀ f, outcome = .error f → s'.files = s.files
  attached : outcome = .ok () → ∃ content, FileAttribute.reading s.capacity content = .ok caps ∧
    ∀ t, s'.files.find? t = if t = target then some content else s.files.find? t

variable {s : Machine}

theorem putTo_error (target : Target) (caps : Option CapSet) (f : Fault) :
    s.PutTo s target caps (.error f) :=
  ⟨rfl, rfl, fun _ _ => rfl, fun h => by cases h⟩

theorem files_changeAttribute (hscript : s.kernel.script = []) (kind : Call.Kind)
    (request : Request) (rule : Except Errno Files) :
    (s.changeAttribute kind request rule).2.files =
      match rule with
      | .ok files => files
      | .error _ => s.files := by
  simp only [changeAttribute, Kernel.attempt, hscript, FailureScript.errno?_nil]
  cases rule <;> rfl

end Machine

namespace Act

variable {s : Machine}

theorem start_checkTarget (target : Target) :
    (checkTarget target).start s =
      some (if target.isValid then .ok () else .error (.os .invalidArgument), s) := by
  rw [checkTarget]
  cases target.isValid <;> rfl

/-- Reading the capabilities of a file answers from the map. -/
theorem start_readFileCaps (hscript : s.kernel.script = []) (target : Target) :
    ∃ attempts, (readFileCaps target).start s =
      some (s.fileMap.get target, s.counting attempts) := by
  rw [readFileCaps, start_bind, start_checkTarget, Option.bind_some, FileMap.get]
  cases hvalid : target.isValid with
  | false =>
      have hmap : s.fileMap target = some (.error (.os .invalidArgument)) := by
        rw [Machine.fileMap, hvalid]
        rfl
      exact ⟨s.main.attempts, by rw [hmap]; rfl⟩
  | true =>
      rw [s.fileMap_of_isValid hvalid]
      refine ⟨.readAttribute :: s.main.attempts, ?_⟩
      simp only [if_true, start_bind, start_attempt, start_request, Machine.readAttribute,
        Kernel.attempt, hscript, FailureScript.errno?_nil, Option.map_some, Option.bind_some,
        Files.read]
      cases s.files.find? target with
      | none => cases target <;> rfl
      | some content =>
          cases content with
          | none => rfl
          | some data =>
              simp only [Option.map_some, Option.getD_some, FileAttribute.reading]
              by_cases hsize : FileAttribute.maxSize < data.length
              · rw [if_pos hsize, if_pos hsize]
                rfl
              · rw [if_neg hsize, if_neg hsize]
                have hread : (Except.ok data : Except Errno Bytes).mapError Fault.os = .ok data :=
                  rfl
                have hcapacity (t : Thread) :
                    Machine.capacity { s with main := t } = s.capacity := rfl
                simp only [hread, start_bind, start_capacity, hcapacity, Option.bind_some]
                cases FileAttribute.decode s.capacity data <;> rfl

/-- A change that finds nothing to remove succeeds as well. -/
theorem start_acceptNoData (hscript : s.kernel.script = []) (kind : Call.Kind)
    (request : Request) (rule : Machine → Except Errno Files) :
    (acceptNoData (Act.request fun s => some (s.changeAttribute kind request (rule s)))).start s =
      some (match rule s with
        | .ok _ => .ok ()
        | .error e => if e = .noData then .ok () else .error (.os e),
        (s.changeAttribute kind request (rule s)).2) := by
  have houtcome : (s.changeAttribute kind request (rule s)).1 = (rule s).map fun _ => () := by
    simp only [Machine.changeAttribute, Kernel.attempt, hscript, FailureScript.errno?_nil]
    cases rule s <;> rfl
  simp only [acceptNoData, start_bind, start_attempt, start_request, Option.map_some,
    Option.bind_some, houtcome]
  cases rule s with
  | ok files => rfl
  | error e =>
      show Act.start (if Fault.os e = .os .noData then return () else throw (.os e)) _ = _
      simp only [Fault.os.injEq]
      split <;> rfl

/-- How the kernel's rule about an attribute bears out the answer to an attempt to change it. -/
inductive Settles (s : Machine) (target : Target) (caps : Option CapSet) :
    Except Errno Files → Except Fault Unit → Prop
  | refusal {e : Errno} (h : e ≠ .noData) : Settles s target caps (.error e) (.error (.os e))
  | nothing (h : s.files.find? target = some none) (hcaps : caps = none) :
      Settles s target caps (.error .noData) (.ok ())
  | change {content : Option Bytes} (h : FileAttribute.reading s.capacity content = .ok caps) :
      Settles s target caps (.ok (s.files.insert target content)) (.ok ())

theorem Settles.putTo (hscript : s.kernel.script = []) {target : Target}
    {caps : Option CapSet} {rule : Except Errno Files} {outcome : Except Fault Unit}
    (h : Settles s target caps rule outcome) (kind : Call.Kind) (request : Request) :
    s.PutTo (s.changeAttribute kind request rule).2 target caps outcome := by
  have hfiles := Machine.files_changeAttribute hscript kind request rule
  obtain ⟨hkernel, hcredentials⟩ := s.changeAttribute_frame kind request rule
  cases h with
  | refusal _ => exact ⟨hkernel, hcredentials, fun _ _ => hfiles, (by cases ·)⟩
  | nothing hfind hcaps =>
      have hreading : FileAttribute.reading s.capacity none = .ok caps := by rw [hcaps]; rfl
      refine ⟨hkernel, hcredentials, fun _ h => (by cases h), fun _ => ⟨none, hreading, fun t => ?_⟩⟩
      simp only [hfiles]
      split
      next ht => rw [ht, hfind]
      next => rfl
  | change hreading =>
      refine ⟨hkernel, hcredentials, fun _ h => (by cases h), fun _ => ⟨_, hreading, fun t => ?_⟩⟩
      rw [hfiles, Table.find?_insert]

theorem Settles.exists_start (hscript : s.kernel.script = []) {target : Target}
    {caps : Option CapSet} (rule : Machine → Except Errno Files) {outcome : Except Fault Unit}
    (h : Settles s target caps (rule s) outcome) (kind : Call.Kind) (request : Request) :
    ∃ s', (acceptNoData (Act.request fun s =>
        some (s.changeAttribute kind request (rule s)))).start s = some (outcome, s') ∧
      s.PutTo s' target caps outcome := by
  refine ⟨_, (start_acceptNoData hscript kind request rule).trans ?_, h.putTo hscript kind request⟩
  generalize rule s = r at h ⊢
  cases h with
  | refusal hne => simp only [if_neg hne]
  | nothing _ _ => rfl
  | change _ => rfl

theorem settles_remove {target : Target} (hvalid : target.isValid = true) :
    Settles s target none (s.files.remove s.credentials target)
      (s.fileMap.verdict s.attaches target none) := by
  have hcarried : (none : Option CapSet).all (fun x => decide (IsCarried x)) = true := rfl
  rw [Files.remove, FileMap.verdict, hvalid, hcarried, s.fileMap_of_isValid hvalid,
    Machine.attaches]
  cases hfind : s.files.find? target with
  | none => exact .refusal (Files.missing_ne_noData target)
  | some content =>
      cases s.credentials.has Value.setfcap with
      | false => exact .refusal (by decide)
      | true =>
          cases content with
          | none => exact .nothing hfind rfl
          | some data => exact .change rfl

theorem settles_write {target : Target} (hvalid : target.isValid = true) {x : CapSet}
    (hcarried : IsCarried x) {data : Bytes}
    (hreading : FileAttribute.reading s.capacity (some data) = .ok (some x)) :
    Settles s target (some x) (s.files.write s.credentials target data)
      (s.fileMap.verdict s.attaches target (some x)) := by
  have hall : (some x).all (fun x => decide (IsCarried x)) = true := decide_eq_true hcarried
  rw [Files.write, FileMap.verdict, hvalid, hall, s.fileMap_of_isValid hvalid, Machine.attaches]
  cases hfind : s.files.find? target with
  | none => exact .refusal (Files.missing_ne_noData target)
  | some content =>
      cases s.credentials.has Value.setfcap with
      | false => exact .refusal (by decide)
      | true => exact .change hreading

theorem start_setFileCaps_of_not_isValid {target : Target} (hvalid : target.isValid = false)
    (caps : Option CapSet) :
    (setFileCaps target caps).start s = some (.error (.os .invalidArgument), s) := by
  simp only [setFileCaps, start_bind, start_checkTarget, Option.bind_some, hvalid]
  rfl

theorem start_setFileCaps_none {target : Target} (hvalid : target.isValid = true) :
    (setFileCaps target none).start s =
      (acceptNoData (Act.request fun s => some (s.removeAttribute target))).start s := by
  simp only [setFileCaps, start_bind, start_checkTarget, Option.bind_some, hvalid]
  rfl

theorem start_setFileCaps_some {target : Target} (hvalid : target.isValid = true) (x : CapSet) :
    (setFileCaps target (some x)).start s =
      match FileAttribute.encode s.capacity s.floor x with
      | .ok data =>
          (acceptNoData (Act.request fun s => some (s.writeAttribute target data))).start s
      | .error f => some (.error f, s) := by
  have hcheck : (checkTarget target).start s = some (.ok (), s) := by
    rw [start_checkTarget, hvalid]
    rfl
  simp only [setFileCaps, start_bind, hcheck, start_capacity, Option.bind_some]
  show Act.start (match FileAttribute.encode s.capacity s.floor x with
    | .ok data => acceptNoData (Act.request fun s => some (s.writeAttribute target data))
    | .error f => throw f) s = _
  cases FileAttribute.encode s.capacity s.floor x <;> rfl

/-- Changing the capabilities of a file answers as the map does, and does to the files what
it does to the map. -/
theorem start_setFileCaps (hscript : s.kernel.script = []) {target : Target}
    {caps : Option CapSet} (hfits : (FileOp.put target caps).Fits s.capacity) :
    ∃ s', (setFileCaps target caps).start s =
        some (s.fileMap.verdict s.attaches target caps, s') ∧
      s.PutTo s' target caps (s.fileMap.verdict s.attaches target caps) := by
  cases hvalid : target.isValid with
  | false =>
      rw [start_setFileCaps_of_not_isValid hvalid, FileMap.verdict_of_not_isValid hvalid]
      exact ⟨s, rfl, s.putTo_error target caps _⟩
  | true =>
      cases caps with
      | none =>
          rw [start_setFileCaps_none hvalid]
          exact Settles.exists_start hscript (fun s => s.files.remove s.credentials target)
            (settles_remove hvalid) .removeAttribute (.removeAttribute target)
      | some x =>
          rw [start_setFileCaps_some hvalid]
          by_cases hcarried : IsCarried x
          · obtain ⟨data, hdata, hreading⟩ :=
              FileAttribute.exists_encode_reading hfits hcarried s.floor
            rw [hdata]
            exact Settles.exists_start hscript (fun s => s.files.write s.credentials target data)
              (settles_write hvalid hcarried hreading) .writeAttribute
              (.writeAttribute target data)
          · rw [FileAttribute.encode_of_not_isCarried hcarried,
              FileMap.verdict_of_not_isCarried hcarried, hvalid]
            exact ⟨s, rfl, s.putTo_error target (some x) .badValue⟩

end Act

namespace Machine

theorem capacity_eq {s s' : Machine} (h : s'.kernel = s.kernel) : s'.capacity = s.capacity :=
  congrArg Kernel.capacity h

theorem attaches_eq {s s' : Machine} (h : s'.credentials = s.credentials) :
    s'.attaches = s.attaches := congrArg (Credentials.has · Value.setfcap) h

theorem fileMap_eq {s s' : Machine} (hkernel : s'.kernel = s.kernel) (hfiles : s'.files = s.files) :
    s'.fileMap = s.fileMap := by
  funext target
  rw [fileMap, fileMap, hfiles, capacity_eq hkernel]

/-- The files after an attempt are as the map after it. -/
theorem PutTo.fileMap_eq {s s' : Machine} {target : Target} {caps : Option CapSet}
    (h : s.PutTo s' target caps (s.fileMap.verdict s.attaches target caps)) :
    s'.fileMap = s.fileMap.put s.attaches target caps := by
  rw [FileMap.put]
  cases hverdict : s.fileMap.verdict s.attaches target caps with
  | error f => exact Machine.fileMap_eq h.kernel (h.refused f hverdict)
  | ok u =>
      have hvalid := (FileMap.verdict_eq_ok_iff.mp hverdict).1
      obtain ⟨content, hreading, hfind⟩ := h.attached hverdict
      funext t
      rw [Except.isOk, Except.toBool, if_pos rfl, Function.update_apply]
      by_cases ht : t = target
      · rw [if_pos ht, ht, s'.fileMap_of_isValid hvalid, hfind, if_pos rfl, capacity_eq h.kernel]
        exact congrArg some hreading
      · rw [if_neg ht, fileMap, fileMap, hfind, if_neg ht, capacity_eq h.kernel]

end Machine

end Capabilities
