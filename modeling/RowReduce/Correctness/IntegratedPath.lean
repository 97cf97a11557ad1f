import RowReduce.Tools.IntegrateMetal

/-!
# The path in the CMake integration

The refusal looks for the closing bracket inside the path, while CMake looks for
it in the path followed by the delimiter: a path that ends in `]==` is accepted
and closes its own bracket early.
-/

namespace RowReduce

open Fallible Delimiter

/-- The second argument of the line. -/
def buildDirectory : String := "$\x7bCMAKE_BINARY_DIR\x7d/row-reduce-lab"

/-- What the tool writes, and the path it has let through. -/
theorem integrateMetal_eq_ok {metal : MetalCheckout} {project text : String}
    (h : integrateMetal metal project = .ok text) :
    text = metal.original ++ appendedText project ∧ ¬closingBracket 2 <:+: project.toList := by
  obtain ⟨_, _, h⟩ := bind_eq_ok_iff.mp h
  obtain ⟨_, hpath, h⟩ := bind_eq_ok_iff.mp h
  obtain ⟨_, _, h⟩ := bind_eq_ok_iff.mp h
  exact ⟨(Except.ok.inj h).symm, throwIf_eq_ok_iff.mp hpath⟩

/-- The rest of the line after the bracket. -/
def afterBracket : List Char := ' ' :: (buildDirectory.toList ++ [')'])

private theorem toList_closingText : "]==] $\x7bCMAKE_BINARY_DIR\x7d/row-reduce-lab)".toList =
    closingBracket 2 ++ afterBracket := by
  simp [closingBracket, afterBracket, buildDirectory]

/-- The written command, character by character. -/
theorem toList_addSubdirectory (project : String) :
    (addSubdirectory project).toList = "add_subdirectory([==[".toList ++
      (project.toList ++ closingBracket 2 ++ afterBracket) := by
  unfold addSubdirectory
  simp only [String.toList_append, toList_closingText, List.append_assoc]

private theorem length_afterBracket : afterBracket.length = 36 := by
  simp [afterBracket, buildDirectory]

/-- The content of the bracket in the line is the path unless the path ends in `]==`. -/
theorem splitFirst_path_iff {path : List Char} (h : ¬closingBracket 2 <:+: path)
    (rest : List Char) :
    splitFirst (closingBracket 2) (path ++ closingBracket 2 ++ rest) = some (path, rest) ↔
      ¬"]==".toList <:+ path := by
  have hoverlap : closingBracket 2 <:+: path ++ (closingBracket 2).dropLast ↔
      closingBracket 2 <:+: path ∨ "]==".toList <:+ path :=
    @infix_append_dropLast_iff _ ']' ['=', '='] (by decide) path
  rw [splitFirst_append_iff (by decide), hoverlap, or_iff_right h]

/-- The command reads as the arguments from its bracket on. -/
theorem readCommand_addSubdirectory {project : String} {path : List Char}
    (hproject : project.toList = '/' :: path) :
    readCommand (addSubdirectory project).toList =
      (readArguments (path ++ closingBracket 2 ++ afterBracket).length.succ.succ.succ.succ.succ
        ("[==[".toList ++ (project.toList ++ closingBracket 2 ++ afterBracket))).map
          fun arguments =>
          ("add_subdirectory", arguments) := by
  rw [toList_addSubdirectory, hproject]
  rfl

/-- A bracket argument ends at the first closing bracket of its length. -/
theorem readArguments_bracket {content path : List Char} (hcontent : content = '/' :: path)
    (fuel : ℕ) : readArguments (fuel + 1) ("[==[".toList ++ content) =
      match splitFirst (closingBracket 2) content with
      | some (argument, d :: rest) =>
        if d = ')' || isSeparation d then
          (readArguments fuel (d :: rest)).map (String.ofList argument :: ·)
        else none
      | _ => none := by
  subst hcontent
  rfl

/-- After the bracket the build directory is the last argument. -/
theorem readArguments_afterBracket (fuel : ℕ) :
    readArguments (fuel + 38) afterBracket = some [buildDirectory] :=
  rfl

/-- The line reads back as the path and the build directory unless the path ends in `]==`. -/
theorem readCommand_addSubdirectory_iff {project : String} (habs : project.toList.head? = some '/')
    (h : ¬closingBracket 2 <:+: project.toList) :
    readCommand (addSubdirectory project).toList =
        some ("add_subdirectory", [project, buildDirectory]) ↔
          ¬"]==".toList <:+ project.toList := by
  obtain ⟨path, hproject⟩ : ∃ path, project.toList = '/' :: path := List.head?_eq_some_iff.mp habs
  have hcontent : project.toList ++ closingBracket 2 ++ afterBracket =
      '/' :: (path ++ closingBracket 2 ++ afterBracket) := by
    rw [hproject]
    rfl
  rw [← splitFirst_path_iff h afterBracket, readCommand_addSubdirectory hproject,
    readArguments_bracket hcontent]
  constructor
  · intro hread
    obtain ⟨arguments, hread, hpair⟩ := Option.map_eq_some_iff.mp hread
    obtain ⟨-, rfl⟩ := Prod.mk.inj hpair
    split at hread
    · rename_i argument d rest hsplit
      split_ifs at hread
      obtain ⟨arguments, -, hcons⟩ := Option.map_eq_some_iff.mp hread
      obtain rfl : argument = project.toList := by
        rw [← (List.cons.inj hcons).1, String.toList_ofList]
      obtain ⟨heq, -⟩ := (splitFirst_eq_some_iff (by decide)).mp hsplit
      rw [hsplit, List.append_cancel_left heq]
    · cases hread
  · intro hsplit
    obtain ⟨fuel, hfuel⟩ :
        ∃ fuel, (path ++ closingBracket 2 ++ afterBracket).length + 4 = fuel + 38 :=
      ⟨(path ++ closingBracket 2).length + 2, by
        rw [List.length_append, length_afterBracket]⟩
    rw [hsplit, hfuel]
    have hread := readArguments_afterBracket fuel
    rw [afterBracket] at hread ⊢
    have hseparation : (decide (' ' = ')') || isSeparation ' ') = true := rfl
    simp only [hseparation, if_true, hread, Option.map_some, String.ofList_toList]

/-- Exactly the accepted absolute paths that do not end in `]==` are read back by CMake as they
were written. -/
theorem integrateMetal_path_iff (metal : MetalCheckout) (project text : String)
    (habs : project.toList.head? = some '/') (h : integrateMetal metal project = .ok text) :
    (text = metal.original ++ appendedText project ∧
      readCommand (addSubdirectory project).toList =
        some ("add_subdirectory", [project, buildDirectory])) ↔
      ¬"]==".toList <:+ project.toList := by
  obtain ⟨htext, hpath⟩ := integrateMetal_eq_ok h
  rw [and_iff_right htext, readCommand_addSubdirectory_iff habs hpath]

/-- A fresh checkout at the pinned commit. -/
def freshCheckout : MetalCheckout where
  commit := integrationPin
  original := ""
  current := ""

/-- An accepted path is written to a fresh checkout. -/
theorem integrateMetal_freshCheckout {project : String} (h : ¬"]==]".toList <:+: project.toList) :
    integrateMetal freshCheckout project = .ok (appendedText project) := by
  have hcommit : ¬freshCheckout.commit ≠ integrationPin := not_not.mpr rfl
  have hcurrent : ¬freshCheckout.current ∉
      [freshCheckout.original, freshCheckout.original ++ appendedText project] :=
    not_not.mpr List.mem_cons_self
  rw [integrateMetal, throwIf_of_not hcommit, throwIf_of_not h, throwIf_of_not hcurrent]
  exact congrArg Except.ok String.empty_append

/-- A plain path is read back. -/
theorem integrateMetal_path_iff_plain :
    (appendedText "/lab" = "" ++ appendedText "/lab" ∧
      readCommand (addSubdirectory "/lab").toList =
        some ("add_subdirectory", ["/lab", buildDirectory])) ↔ ¬"]==".toList <:+ "/lab".toList :=
  integrateMetal_path_iff freshCheckout "/lab" _ rfl
    (integrateMetal_freshCheckout (by decide +kernel))

/-- An accepted path that closes its own bracket. -/
theorem not_integrateMetal_path : ¬∀ (metal : MetalCheckout) (project text : String),
    project.toList.head? = some '/' → integrateMetal metal project = .ok text →
      readCommand (addSubdirectory project).toList =
        some ("add_subdirectory", [project, buildDirectory]) := by
  intro h
  have haccepted : integrateMetal freshCheckout "/a]==" = .ok (appendedText "/a]==") :=
    integrateMetal_freshCheckout (by decide +kernel)
  have hread := h freshCheckout "/a]==" _ rfl haccepted
  exact (readCommand_addSubdirectory_iff rfl (integrateMetal_eq_ok haccepted).2).mp hread
    ⟨"/a".toList, rfl⟩

end RowReduce
