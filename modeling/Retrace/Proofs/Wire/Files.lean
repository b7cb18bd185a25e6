import Retrace.Command.Run
import Retrace.Proofs.Wire.Truncation

/-!
Files of operands. Forms of operands are self-delimiting, so a file can be taken apart in one way at most, and
it is read exactly if it can be taken apart. The command prints the operands of its files up to the first
one that cannot.
-/

set_option autoImplicit false

namespace Retrace

namespace Wire

structure SplitsInto (bytes : List UInt8) (parts : List (List UInt8)) (os : List Operand) : Prop where
  flatten : parts.flatten = bytes
  decoded : List.Forall₂ (fun bs o => Operand.decode bs = .ok o) parts os

namespace SplitsInto

theorem nil : SplitsInto [] [] [] := ⟨rfl, .nil⟩

theorem cons {bs rest : List UInt8} {o : Operand} {parts : List (List UInt8)} {os : List Operand}
    (first : Operand.decode bs = .ok o) (others : SplitsInto rest parts os) :
    SplitsInto (bs ++ rest) (bs :: parts) (o :: os) :=
  ⟨by rw [List.flatten_cons, others.flatten], .cons first others.decoded⟩

theorem of_nil {parts : List (List UInt8)} {os : List Operand} (h : SplitsInto [] parts os) :
    parts = [] ∧ os = [] := by
  obtain ⟨hflat, hdecoded⟩ := h
  cases hdecoded with
  | nil => exact ⟨rfl, rfl⟩
  | cons first others =>
    have hpos := ((decode_iff_encodesWithin _ _).1 first).1.length_pos
    rw [List.flatten_cons, List.append_eq_nil_iff] at hflat
    rw [hflat.1] at hpos
    cases hpos

theorem exists_nil_iff {os : List Operand} : (∃ parts, SplitsInto [] parts os) ↔ os = [] := by
  constructor
  · rintro ⟨parts, h⟩
    exact h.of_nil.2
  · rintro rfl
    exact ⟨[], nil⟩

theorem unique {bytes : List UInt8} {parts parts' : List (List UInt8)} {os os' : List Operand}
    (h : SplitsInto bytes parts os) (h' : SplitsInto bytes parts' os') : parts = parts' ∧ os = os' := by
  obtain ⟨hflat, hdecoded⟩ := h
  induction hdecoded generalizing bytes parts' os' with
  | nil =>
    subst hflat
    obtain ⟨rfl, rfl⟩ := h'.of_nil
    exact ⟨rfl, rfl⟩
  | @cons bs o parts os first others ih =>
    obtain ⟨hflat', hdecoded'⟩ := h'
    cases hdecoded' with
    | nil =>
      have hnil : SplitsInto [] (bs :: parts) (o :: os) := ⟨hflat.trans hflat'.symm, .cons first others⟩
      cases hnil.of_nil.1
    | @cons bs' o' parts' os' first' others' =>
      have heq : bs ++ parts.flatten = bs' ++ parts'.flatten := hflat.trans hflat'.symm
      have hbs := eq_of_append_eq ((decode_iff_encodesWithin _ _).1 first)
        ((decode_iff_encodesWithin _ _).1 first') heq
      subst hbs
      obtain ⟨rfl, rfl⟩ := ih ⟨(List.append_cancel_left heq).symm, others'⟩ rfl
      cases first.symm.trans first'
      exact ⟨rfl, rfl⟩

end SplitsInto

theorem readAll_of_nil (bytes : Nat) {r : Reader} (h : r.rest = []) : Operand.readAll bytes r = .ok [] := by
  cases bytes with
  | zero => rfl
  | succ bytes => rw [Operand.readAll, Reader.isEmpty, h, List.isEmpty_nil, if_pos rfl]

theorem readAll_of_ne_nil (bytes : Nat) {r : Reader} (h : r.rest ≠ []) :
    Operand.readAll (bytes + 1) r =
      (Operand.read r >>= fun x => Operand.readAll bytes x.2 >>= fun os => .ok (x.1 :: os)) := by
  rw [Operand.readAll, Reader.isEmpty, if_neg (by simpa using h)]

theorem readAll_eq_ok_iff (bytes : Nat) (r : Reader) (hbytes : r.remaining ≤ bytes) (os : List Operand) :
    Operand.readAll bytes r = .ok os ↔ ∃ parts, SplitsInto r.rest parts os := by
  induction bytes generalizing r os with
  | zero =>
    have hnil : r.rest = [] := List.length_eq_zero_iff.1 (Nat.le_zero.1 hbytes)
    rw [readAll_of_nil 0 hnil, hnil, SplitsInto.exists_nil_iff, Except.ok.injEq, eq_comm]
  | succ bytes ih =>
    by_cases hnil : r.rest = []
    · rw [readAll_of_nil _ hnil, hnil, SplitsInto.exists_nil_iff, Except.ok.injEq, eq_comm]
    rw [readAll_of_ne_nil bytes hnil]
    constructor
    · intro h
      obtain ⟨o, s, bs, hbs, hc, hs⟩ := (readWithin_takes maxOperandDepth).of_bind h
      obtain ⟨os', hos, heq⟩ := (bind_eq_ok_iff _ _ _).1 hs
      cases heq
      have hpos := hbs.1.length_pos
      have hrem := hc.remaining
      obtain ⟨parts, hparts⟩ := (ih s (by omega) os').1 hos
      rw [hc.rest]
      exact ⟨_, hparts.cons ((decode_iff_encodesWithin _ _).2 hbs)⟩
    · rintro ⟨parts, hflat, hdecoded⟩
      cases hdecoded with
      | nil => exact absurd hflat.symm hnil
      | @cons bs o parts os first others =>
        have hbs := (decode_iff_encodesWithin _ _).1 first
        have hc : r.Consumes bs ⟨r.position + bs.length, parts.flatten⟩ := ⟨hflat.symm, rfl⟩
        have hpos := hbs.1.length_pos
        have hrem := hc.remaining
        have hos := (ih ⟨r.position + bs.length, parts.flatten⟩ (by omega) os).2 ⟨parts, rfl, others⟩
        rw [Operand.read, (readWithin_takes maxOperandDepth).bind hbs hc, hos]
        rfl

/-- A sequence of operands is read exactly if the bytes can be taken apart into them. -/
theorem decodeAll_eq_ok_iff (bytes : List UInt8) (os : List Operand) :
    Operand.decodeAll bytes = .ok os ↔ ∃ parts, SplitsInto bytes parts os :=
  readAll_eq_ok_iff bytes.length (.ofBytes bytes) (Nat.le_refl _) os

theorem fileOperands_eq_ok_iff (path : String) (content : Except String (List UInt8)) (os : List Operand) :
    fileOperands path content = .ok os ↔ ∃ bytes parts, content = .ok bytes ∧ SplitsInto bytes parts os := by
  cases content with
  | error cause => simp [fileOperands]
  | ok bytes =>
    have hmap : fileOperands path (.ok bytes) = .ok os ↔ Operand.decodeAll bytes = .ok os := by
      rw [fileOperands]
      cases Operand.decodeAll bytes <;> simp [Except.mapError]
    rw [hmap, decodeAll_eq_ok_iff]
    simp

end Wire

namespace Command

open Wire

variable {σ : Type} (read : String → StateM σ (Except String (List UInt8)))

def fileResults (paths : List String) : StateM σ (List (Except FileError (List Operand))) :=
  paths.mapM fun path => fileOperands path <$> read path

theorem run_fileResults_cons (path : String) (paths : List String) (w : σ) :
    ((fileResults read (path :: paths)).run w).1 =
      fileOperands path ((read path).run w).1 :: ((fileResults read paths).run ((read path).run w).2).1 := by
  rw [fileResults, List.mapM_cons]
  rfl

theorem lines_append (json : Bool) (os os' : List Operand) :
    lines json (os ++ os') = lines json os ++ lines json os' := by
  rw [lines, List.map_append, String.join_append]
  rfl

theorem run_printFiles_cons (json : Bool) (output path : String) (paths : List String) (w : σ)
    {os : List Operand} (h : fileOperands path ((read path).run w).1 = .ok os) :
    ((printFiles read json output (path :: paths)).run w).1 =
      ((printFiles read json (output ++ lines json os) paths).run ((read path).run w).2).1 := by
  rw [printFiles, StateT.run_bind]
  simp only [Bind.bind, h]

theorem run_printFiles_of_ok (json : Bool) (output : String) (paths : List String) (w : σ)
    (before : List (List Operand)) (rest : List (Except FileError (List Operand)))
    (h : ((fileResults read paths).run w).1 = before.map .ok ++ rest) :
    ∃ (paths' : List String) (w' : σ), ((fileResults read paths').run w').1 = rest ∧
      ((printFiles read json output paths).run w).1 =
        ((printFiles read json (output ++ lines json before.flatten) paths').run w').1 := by
  induction before generalizing output paths w with
  | nil => exact ⟨paths, w, h, by simp [lines]⟩
  | cons os before ih =>
    cases paths with
    | nil => cases h
    | cons path paths =>
      rw [run_fileResults_cons, List.map_cons, List.cons_append] at h
      obtain ⟨hos, hrest⟩ := List.cons.inj h
      obtain ⟨paths', w', hleft, hrun⟩ := ih (output ++ lines json os) paths _ hrest
      refine ⟨paths', w', hleft, ?_⟩
      rw [run_printFiles_cons read json output path paths w hos, hrun, List.flatten_cons, lines_append,
        String.append_assoc]

theorem run_printFiles_of_nil (json : Bool) (output : String) (paths : List String) (w : σ)
    (h : ((fileResults read paths).run w).1 = []) :
    ((printFiles read json output paths).run w).1 = { output } := by
  cases paths with
  | nil => rfl
  | cons path paths =>
    rw [run_fileResults_cons] at h
    cases h

theorem run_printFiles_of_error (json : Bool) (output : String) (paths : List String) (w : σ)
    {e : FileError} {after : List (Except FileError (List Operand))}
    (h : ((fileResults read paths).run w).1 = .error e :: after) :
    ((printFiles read json output paths).run w).1 =
      { code := 1, output, errors := "xcheck: " ++ e.message ++ "\n" } := by
  cases paths with
  | nil => cases h
  | cons path paths =>
    rw [run_fileResults_cons] at h
    obtain ⟨herror, -⟩ := List.cons.inj h
    rw [printFiles, StateT.run_bind]
    simp only [Bind.bind, herror]
    rfl

/-- Forms of operands are self-delimiting: a part of one is cut short, and what follows one is left over. So a
file is taken apart in one way at most, and is read exactly if it can be; else nothing of it is. The command
prints the operands of the files before the first one that cannot be read, and succeeds if there is none. -/
theorem operands_selfDelimiting :
    (∀ (bs : List UInt8) (o : Operand), Operand.decode bs = .ok o →
      (∀ cut, cut <+: bs → cut ≠ bs →
        ∃ p, p ≤ cut.length ∧ Operand.decode cut = .error (.unexpectedEnd p)) ∧
      (∀ more, more ≠ [] → Operand.decode (bs ++ more) = .error (.trailingBytes more.length bs.length))) ∧
    (∀ bytes parts parts' os os', SplitsInto bytes parts os → SplitsInto bytes parts' os' →
      parts = parts' ∧ os = os') ∧
    (∀ path content os, fileOperands path content = .ok os ↔
      ∃ bytes parts, content = .ok bytes ∧ SplitsInto bytes parts os) ∧
    (∀ path content, (¬ ∃ bytes parts os, content = .ok bytes ∧ SplitsInto bytes parts os) →
      ∃ e, fileOperands path content = .error e) ∧
    (∀ (σ : Type) (read : String → StateM σ (Except String (List UInt8))) (args : List String)
      (options : Options) (w : σ), Options.parse {} args = .ok options →
      (∀ before : List (List Operand), ((fileResults read options.files).run w).1 = before.map .ok →
        ((run read args).run w).1 = { output := lines options.json before.flatten }) ∧
      (∀ (before : List (List Operand)) (e : FileError) (after : List (Except FileError (List Operand))),
        ((fileResults read options.files).run w).1 = before.map .ok ++ .error e :: after →
        ((run read args).run w).1.output = lines options.json before.flatten ∧
        ((run read args).run w).1.code ≠ 0)) := by
  refine ⟨fun bs o hok => ?_, fun _ _ _ _ _ => SplitsInto.unique, fileOperands_eq_ok_iff,
    fun path content hnone => ?_, fun σ read args options w hargs => ?_⟩
  · have hbs := (decode_iff_encodesWithin bs o).1 hok
    refine ⟨fun cut hcut hne => decode_of_endsIn hbs ?_, fun more => decode_append hbs⟩
    obtain ⟨missing, rfl⟩ := hcut
    exact ⟨missing, by simpa using hne, rfl⟩
  · cases hread : fileOperands path content with
    | error e => exact ⟨e, rfl⟩
    | ok os =>
      obtain ⟨bytes, parts, hsplit⟩ := (fileOperands_eq_ok_iff path content os).1 hread
      exact absurd ⟨bytes, parts, os, hsplit⟩ hnone
  · have hrun : run read args = printFiles read options.json "" options.files := by rw [run, hargs]
    rw [hrun]
    refine ⟨fun before hresults => ?_, fun before e after hresults => ?_⟩
    · rw [← List.append_nil (before.map _)] at hresults
      obtain ⟨paths, w', hnil, heq⟩ := run_printFiles_of_ok read options.json "" options.files w _ _ hresults
      rw [heq, run_printFiles_of_nil read _ _ paths w' hnil, String.empty_append]
    · obtain ⟨paths, w', herror, heq⟩ := run_printFiles_of_ok read options.json "" options.files w _ _ hresults
      rw [heq, run_printFiles_of_error read _ _ paths w' herror, String.empty_append]
      exact ⟨rfl, (by decide : (1 : UInt8) ≠ 0)⟩

def paddedFlag : List UInt8 := [0xc1, 2, 0x8c, 0, 5, 0x1b, 0xc2, 2]

def sampleFile (path : String) : StateM Unit (Except String (List UInt8)) :=
  pure (.ok (if path = "a" then paddedFlag else [0xc1, 2, 0x8c]))

/-- A cut within the padded header, a byte too many, a file with an operand twice, and the command on a
file that can be read and one that cannot. -/
theorem operands_selfDelimiting_of_padding :
    (∃ p, p ≤ 3 ∧ Operand.decode [0xc1, 2, 0x8c] = .error (.unexpectedEnd p)) ∧
    Operand.decode (paddedFlag ++ [7]) = .error (.trailingBytes 1 8) ∧
    fileOperands "a" (.ok (paddedFlag ++ paddedFlag)) = .ok [.value (.flag true), .value (.flag true)] ∧
    ((run sampleFile ["a", "b"]).run ()).1.output = "true\n" ∧
    ((run sampleFile ["a", "b"]).run ()).1.code ≠ 0 := by
  obtain ⟨hbytes, -, hfile, -, hcommand⟩ := operands_selfDelimiting
  have hok : Operand.decode paddedFlag = .ok (.value (.flag true)) := by decide
  obtain ⟨hcut, hmore⟩ := hbytes _ _ hok
  refine ⟨hcut [0xc1, 2, 0x8c] (by decide) (by decide), hmore [7] (by decide), ?_, ?_⟩
  · exact (hfile _ _ _).2 ⟨_, [paddedFlag, paddedFlag], rfl, rfl, .cons hok (.cons hok .nil)⟩
  · exact (hcommand Unit sampleFile ["a", "b"] ⟨false, ["a", "b"]⟩ () (by decide)).2
      [[.value (.flag true)]] (.malformed "b" (.unexpectedEnd 3)) [] (by decide)

end Command
end Retrace
