import Formals.Binding.Emission

/-!
# Markers stand for nodes

A marker is a short way to write a parameter, and stands for a node with the span of the list or the
group around it (`ParamNode.ofMarker`). Wherever in a list some of the markers are written out as
their nodes (`AllWrittenOut`), the check does what it did, in the same order and with the same
errors, and so does all that comes after it (`markers_written_out`).
-/

namespace Formals

namespace ParamNode

/-- The node that a marker stands for in a list or a group of a span. -/
def ofMarker (span : Span) (text : String) : ParamNode :=
  match text.toList with
  | ['*', '*'] => .keywordRest none span
  | '*' :: '*' :: name => .keywordRest (some (String.ofList name)) span
  | ['*'] => .rest none span
  | '*' :: name => .rest (some (String.ofList name)) span
  | _ => .required text span

example : ofMarker {} "**opts" = .keywordRest (some "opts") {} := rfl

mutual
/-- A node is another one in which, at whatever depth, some of the markers are written out. -/
inductive WrittenOut : Span → ParamNode → ParamNode → Prop
  | same {span : Span} {node : ParamNode} : WrittenOut span node node
  | marker {span : Span} {text : String} : WrittenOut span (.marker text) (ofMarker span text)
  | group {span inner : Span} {children children' : List ParamNode} :
    AllWrittenOut inner children children' →
    WrittenOut span (.group children inner) (.group children' inner)

/-- Nodes are others in which some of the markers are written out. -/
inductive AllWrittenOut : Span → List ParamNode → List ParamNode → Prop
  | nil {span : Span} : AllWrittenOut span [] []
  | cons {span : Span} {node node' : ParamNode} {others others' : List ParamNode} :
    WrittenOut span node node' → AllWrittenOut span others others' →
    AllWrittenOut span (node :: others) (node' :: others')
end

/-- A text that begins with another one is that, and the characters that follow. -/
theorem eq_append_ofList {text before : String} {after : List Char}
    (h : text.toList = before.toList ++ after) : text = before ++ String.ofList after := by
  rw [← String.toList_inj, String.toList_append, String.toList_ofList, h]

/-- A marker whose name is not empty has a name. -/
theorem markerName_of_ne_nil {name : List Char} (h : name ≠ []) :
    markerName name = some (String.ofList name) := by
  rw [markerName, if_neg (by rwa [List.isEmpty_iff])]

/-- A marker is checked as its node is. -/
theorem check_ofMarker (span : Span) (inGroup : Bool) (text : String) :
    (ofMarker span text).check span inGroup = (marker text).check span inGroup := by
  have hmarker : (marker text).check span inGroup = checkMarker text span inGroup := by rw [check]
  rw [hmarker, checkMarker, ofMarker]
  split
  · rename_i htext
    obtain rfl : text = "**" := String.toList_inj.1 htext
    rw [check]
    rfl
  · rename_i name hname htext
    -- the error in a group gives the marker as it is written
    have htext' : text = "**" ++ String.ofList name := eq_append_ofList htext
    simp only [htext, markerName_of_ne_nil hname, check]
    rw [Option.getD_some, ← htext']
  · rename_i htext
    simp only [htext]
    rw [check]
    rfl
  · rename_i name hone htwo hname htext
    simp only [htext, markerName_of_ne_nil hname, check]
  · rename_i htwo hmore hone hsome
    split
    · rename_i name htext
      exact (hmore name htext).elim
    · rename_i name _ htext
      exact (hsome name htext).elim
    · rw [check]

/-- Writing markers out leaves a group empty or not empty. -/
theorem AllWrittenOut.isEmpty_eq {span : Span} {nodes nodes' : List ParamNode}
    (h : AllWrittenOut span nodes nodes') : nodes'.isEmpty = nodes.isEmpty := by
  cases h <;> rfl

mutual
/-- Writing markers out in a node changes nothing about its check. -/
theorem WrittenOut.check_eq {span : Span} {node node' : ParamNode}
    (h : WrittenOut span node node') (inGroup : Bool) :
    node'.check span inGroup = node.check span inGroup :=
  match h with
  | .same => rfl
  | .marker => check_ofMarker span inGroup _
  | .group hchildren => by
    rw [check, check, hchildren.isEmpty_eq, hchildren.checkLevel_eq]

/-- Writing markers out in nodes changes nothing about the check of their level. -/
theorem AllWrittenOut.checkLevel_eq {span : Span} {nodes nodes' : List ParamNode}
    (h : AllWrittenOut span nodes nodes') (inGroup : Bool) (phase : Phase) :
    checkLevel span inGroup phase nodes' = checkLevel span inGroup phase nodes :=
  match h with
  | .nil => rfl
  | .cons hnode hothers => by
    simp only [checkLevel, hnode.check_eq, hothers.checkLevel_eq]
end

end ParamNode

open ParamNode

/-- **Markers.** Where some markers of a list, at whatever depth, are written out as the nodes that
they stand for, the list is compiled to the same code or refused with the same error. -/
theorem markers_written_out {span : Span} {nodes nodes' : List ParamNode}
    (h : AllWrittenOut span nodes nodes') (localOnly : Bool) :
    ParamList.compile? (some ⟨nodes', span⟩) localOnly =
      ParamList.compile? (some ⟨nodes, span⟩) localOnly := by
  rw [ParamList.compile?, ParamList.compile?, ParamList.check?, ParamList.check?,
    h.checkLevel_eq]

/-- A list with markers in it and in a group, one of which has too many stars, with most of them
written out. -/
theorem nested_markers_written_out :
    ParamList.compile? (some ⟨[.required "a" ⟨0, 9⟩,
        .group [.marker "b", .rest (some "c") ⟨2, 5⟩] ⟨2, 5⟩, .keywordRest (some "*") ⟨0, 9⟩],
        ⟨0, 9⟩⟩) true =
      ParamList.compile? (some ⟨[.marker "a", .group [.marker "b", .marker "*c"] ⟨2, 5⟩,
        .marker "***"], ⟨0, 9⟩⟩) true ∧
    ParamList.compile? (some ⟨[.marker "a", .group [.marker "b", .marker "*c"] ⟨2, 5⟩,
      .marker "***"], ⟨0, 9⟩⟩) true = .error (.malformed (.notParameterName "*") ⟨0, 9⟩) := by
  have ha : WrittenOut ⟨0, 9⟩ (.marker "a") (.required "a" ⟨0, 9⟩) :=
    @WrittenOut.marker ⟨0, 9⟩ "a"
  have hc : WrittenOut ⟨2, 5⟩ (.marker "*c") (.rest (some "c") ⟨2, 5⟩) :=
    @WrittenOut.marker ⟨2, 5⟩ "*c"
  have hstars : WrittenOut ⟨0, 9⟩ (.marker "***") (.keywordRest (some "*") ⟨0, 9⟩) :=
    @WrittenOut.marker ⟨0, 9⟩ "***"
  refine ⟨markers_written_out ?_ true, rfl⟩
  exact .cons ha (.cons (.group (.cons .same (.cons hc .nil))) (.cons hstars .nil))

end Formals
