import MarkupPairs.Proofs.JsonValues
import MarkupPairs.Settings

/-!
# Settings over their defaults

A text gives some of the settings, in any order and among fields that mean nothing. What is read is
the defaults with these in their places. They are checked in a fixed order, whatever the order of the
text.
-/

namespace MarkupPairs

namespace Json

variable {α : Type} {fields fields' : List (Option Text × Json)} {name : String} {j : Json}
  {n : Nat} {writes : α → Json → Prop} {value? : Option α}

/-- A count as it is spelled, in decimal digits. -/
def ofCount (n : Nat) : Json := .number (Nat.toDigits 10 n)

def IsCount (n : Nat) (j : Json) : Prop := n ≤ maxCount ∧ j = ofCount n

/-- Whether some fields give a value under a name, once and as it is written, or do not have the
name. -/
def Gives (fields : List (Option Text × Json)) (name : String) (writes : α → Json → Prop) :
    Option α → Prop
  | none => ∀ field ∈ fields, field.1 ≠ some name.toList
  | some value => ∃ j front behind, writes value j ∧
      fields = front ++ (some name.toList, j) :: behind ∧
      ∀ field ∈ front ++ behind, field.1 ≠ some name.toList

/-- What some fields have under a name, if they do not repeat it. -/
def field? (fields : List (Option Text × Json)) (name : Text) : Option (Option Json) :=
  match fields.filter (·.1 == some name) with
  | [] => some none
  | [(_, value)] => some (some value)
  | _ => none

theorem IsCount.asCount?_eq (h : IsCount n j) : j.asCount? = some n := by
  obtain ⟨hle, rfl⟩ := h
  have hdigits : (Nat.toDigits 10 n).all Char.isDigit :=
    List.all_eq_true.mpr fun c hc => Nat.isDigit_of_mem_toDigits (by decide) (by decide) hc
  have hvalue : (ofCount n).asNat? = some n := by
    rw [ofCount, asNat?, if_pos hdigits]
    exact congrArg some (Nat.ofDigitChars_toDigits (by decide) (by decide))
  rw [asCount?, hvalue, Option.filter_some, if_pos (decide_eq_true hle)]

theorem asRecord?_object (h : ∀ field ∈ fields, field.1 ≠ none) (names : List Text) :
    asRecord? names (.object fields) = names.mapM (field? fields) := by
  rw [asRecord?, if_neg]
  · rfl
  · rw [List.any_eq_true]
    rintro ⟨field, hfield, hnone⟩
    exact h field hfield (Option.isNone_iff_eq_none.mp hnone)

/-- What is given under a name is read, and what is not given is the default. -/
theorem Gives.exists_field (h : Gives fields name writes value?) :
    ∃ field, field? fields name.toList = some field ∧
      ∀ {β : Type} (default : β) (read : Json → Option β) (f : α → β),
        (∀ value j, writes value j → read j = some (f value)) →
          fieldOr default read field = some ((value?.map f).getD default) := by
  have hfilter {fields : List (Option Text × Json)}
      (h : ∀ field ∈ fields, field.1 ≠ some name.toList) :
      fields.filter (·.1 == some name.toList) = [] := by
    rw [List.filter_eq_nil_iff]
    exact fun field hfield => mt beq_iff_eq.mp (h field hfield)
  cases value? with
  | none =>
      refine ⟨none, ?_, fun default read f _ => rfl⟩
      rw [field?, hfilter h]
  | some value =>
      obtain ⟨j, front, behind, hwrites, rfl, hother⟩ := h
      rw [List.forall_mem_append] at hother
      refine ⟨some j, ?_, fun default read f hread => hread value j hwrites⟩
      have hcons : ((some name.toList, j) :: behind).filter (·.1 == some name.toList) =
          (some name.toList, j) :: behind.filter (·.1 == some name.toList) :=
        List.filter_cons_of_pos (beq_self_eq_true _)
      rw [field?, List.filter_append, hcons, hfilter hother.1, hfilter hother.2]
      rfl

/-- The order of the fields does not matter. -/
theorem Gives.perm (h : Gives fields name writes value?) (hperm : fields'.Perm fields) :
    Gives fields' name writes value? := by
  cases value? with
  | none => exact fun field hfield => h field (hperm.subset hfield)
  | some value =>
      obtain ⟨j, front, behind, hwrites, rfl, hother⟩ := h
      obtain ⟨front', behind', rfl⟩ :=
        List.append_of_mem (hperm.mem_iff.mpr (List.mem_append_right front List.mem_cons_self))
      have hrest : (front' ++ behind').Perm (front ++ behind) :=
        (List.perm_middle.symm.trans (hperm.trans List.perm_middle)).cons_inv
      exact ⟨j, front', behind', hwrites, rfl, fun field hfield =>
        hother field (hrest.subset hfield)⟩

end Json

/-! ## Indentation and limits -/

/-- The values that an indentation is written as. -/
inductive IndentUnit.IsWritten : IndentUnit → Json → Prop where
  | tab : IsWritten .tab (.string (some "tab".toList))
  | tabOfNull : IsWritten .tab (.object [(some "tab".toList, .null)])
  | spaces {n : Nat} {j : Json} (count : Json.IsCount n j) :
      IsWritten (.spaces n) (.object [(some "spaces".toList, j)])

theorem IndentUnit.IsWritten.ofJson?_eq {unit : IndentUnit} {j : Json} (h : unit.IsWritten j) :
    IndentUnit.ofJson? j = some unit := by
  cases h with
  | tab => rfl
  | tabOfNull => rfl
  | spaces count => exact congrArg (Option.map IndentUnit.spaces) count.asCount?_eq

namespace ScanLimits

/-- The limits that are given. -/
structure Given where
  enclosing : Option Nat
  paired : Option Nat
  surrounding : Option Nat

/-- The default limits with the given ones in their places. -/
def Given.overlay (given : Given) : ScanLimits where
  enclosing := given.enclosing.getD default.enclosing
  paired := given.paired.getD default.paired
  surrounding := given.surrounding.getD default.surrounding

/-- The values that limits are written as: an object, or an array of the first ones. -/
inductive Given.IsWritten : Given → Json → Prop where
  | object {given : Given} {fields : List (Option Text × Json)}
      (texts : ∀ field ∈ fields, field.1 ≠ none)
      (enclosing : Json.Gives fields "enclosingLines" Json.IsCount given.enclosing)
      (paired : Json.Gives fields "pairedLines" Json.IsCount given.paired)
      (surrounding : Json.Gives fields "surroundingLines" Json.IsCount given.surrounding) :
      IsWritten given (.object fields)
  | array {counts : List Nat} (short : counts.length ≤ 3) (le : ∀ n ∈ counts, n ≤ maxCount) :
      IsWritten ⟨counts[0]?, counts[1]?, counts[2]?⟩ (.array (counts.map Json.ofCount))

theorem Given.IsWritten.ofJson?_eq {given : Given} {j : Json} (h : given.IsWritten j) :
    ScanLimits.ofJson? j = some given.overlay := by
  have hcount (n : Nat) (j : Json) (h : Json.IsCount n j) : j.asCount? = some n := h.asCount?_eq
  cases h with
  | object texts enclosing paired surrounding =>
      obtain ⟨_, henclosing, hreadEnclosing⟩ := enclosing.exists_field
      obtain ⟨_, hpaired, hreadPaired⟩ := paired.exists_field
      obtain ⟨_, hsurrounding, hreadSurrounding⟩ := surrounding.exists_field
      simp only [ScanLimits.ofJson?, Json.asRecord?_object texts, fieldNames, List.map_cons,
        List.map_nil, List.mapM_cons, List.mapM_nil, henclosing, hpaired, hsurrounding,
        Option.bind_eq_bind, Option.bind_some, Option.pure_def, hreadEnclosing _ _ id hcount,
        hreadPaired _ _ id hcount, hreadSurrounding _ _ id hcount, Option.map_id, id, overlay]
  | @array counts short hle =>
      have hread (n : Nat) (hn : n ∈ counts) : (Json.ofCount n).asCount? = some n :=
        hcount n _ ⟨hle n hn, rfl⟩
      match counts, short with
      | [], _ => rfl
      | [a], _ =>
          simp [ScanLimits.ofJson?, Json.asRecord?, fieldNames, Json.fieldOr, hread a, overlay]
      | [a, b], _ =>
          simp [ScanLimits.ofJson?, Json.asRecord?, fieldNames, Json.fieldOr, hread a, hread b,
            overlay]
      | [a, b, c], _ =>
          simp [ScanLimits.ofJson?, Json.asRecord?, fieldNames, Json.fieldOr, hread a, hread b,
            hread c, overlay]

/-- The limits by their names, in the order in which they are checked. -/
def windows (limits : ScanLimits) : List (String × Nat) :=
  [("enclosingLines", limits.enclosing), ("pairedLines", limits.paired),
    ("surroundingLines", limits.surrounding)]

theorem firstEmpty?_eq (limits : ScanLimits) :
    limits.firstEmpty? = ((limits.windows.filter (·.2 = 0)).map (·.1)).head? := by
  by_cases henclosing : limits.enclosing = 0
  · simp [firstEmpty?, windows, henclosing]
  by_cases hpaired : limits.paired = 0
  · simp [firstEmpty?, windows, henclosing, hpaired]
  by_cases hsurrounding : limits.surrounding = 0
  · simp [firstEmpty?, windows, henclosing, hpaired, hsurrounding]
  · simp [firstEmpty?, windows, henclosing, hpaired, hsurrounding]

end ScanLimits

namespace Settings

/-- The settings that are given. -/
structure Given where
  inlineTag : Option Text
  blockTag : Option Text
  selfClosingTag : Option Text
  autoRename : Option Bool
  indent : Option IndentUnit
  limits : Option ScanLimits.Given

/-- The defaults with the given settings in their places. -/
def Given.overlay (given : Given) : Settings where
  inlineTag := given.inlineTag.getD default.inlineTag
  blockTag := given.blockTag.getD default.blockTag
  selfClosingTag := given.selfClosingTag.getD default.selfClosingTag
  autoRename := given.autoRename.getD default.autoRename
  indent := given.indent.getD default.indent
  limits := (given.limits.map ScanLimits.Given.overlay).getD default.limits

/-- Whether the fields of an object give some settings and no others. Fields by other names may be
anything, as long as the names are texts. -/
structure Given.IsWritten (given : Given) (fields : List (Option Text × Json)) : Prop where
  texts : ∀ field ∈ fields, field.1 ≠ none
  inlineTag : Json.Gives fields "defaultInlineTag" (fun name j => j = .string (some name))
    given.inlineTag
  blockTag : Json.Gives fields "defaultBlockTag" (fun name j => j = .string (some name))
    given.blockTag
  selfClosingTag : Json.Gives fields "defaultSelfClosingTag"
    (fun name j => j = .string (some name)) given.selfClosingTag
  autoRename : Json.Gives fields "autoRename" (fun b j => j = .bool b) given.autoRename
  indent : Json.Gives fields "indent" IndentUnit.IsWritten given.indent
  limits : Json.Gives fields "limits" ScanLimits.Given.IsWritten given.limits

variable {given : Given} {fields fields' : List (Option Text × Json)} {t : Text}

/-- The names of tags by the names of their settings, in the order in which they are checked. -/
def tagNames (s : Settings) : List (String × Text) :=
  [("defaultInlineTag", s.inlineTag), ("defaultBlockTag", s.blockTag),
    ("defaultSelfClosingTag", s.selfClosingTag)]

/-- Whether settings make sense: no tag name is blank, indentation is not by no space at all, and no
limit is zero. -/
structure IsUsable (s : Settings) : Prop where
  tagNames : ∀ tag ∈ s.tagNames, ¬∀ c ∈ tag.2, Unicode.isWhite c
  indent : s.indent ≠ .spaces 0
  windows : ∀ window ∈ s.limits.windows, window.2 ≠ 0

/-- All that makes no sense about settings, in the order in which it is checked. -/
def violations (s : Settings) : List SettingsError :=
  (s.tagNames.filter (·.2.isBlank)).map (fun tag => .emptyTagName tag.1) ++
    ((if s.indent = .spaces 0 then [.emptyIndent] else []) ++
      (s.limits.windows.filter (·.2 = 0)).map (fun window => .emptyWindow window.1))

/-- Each error is about the setting that it names. -/
theorem mem_violations_iff {s : Settings} {e : SettingsError} :
    e ∈ s.violations ↔
      (∃ tag ∈ s.tagNames, tag.2.isBlank ∧ e = .emptyTagName tag.1) ∨
        (s.indent = .spaces 0 ∧ e = .emptyIndent) ∨
          ∃ window ∈ s.limits.windows, window.2 = 0 ∧ e = .emptyWindow window.1 := by
  have hindent : e ∈ (if s.indent = .spaces 0 then [SettingsError.emptyIndent] else []) ↔
      s.indent = .spaces 0 ∧ e = .emptyIndent := by
    by_cases h : s.indent = .spaces 0
    · rw [if_pos h, List.mem_singleton, and_iff_right h]
    · rw [if_neg h]
      exact iff_of_false List.not_mem_nil fun heq => h heq.1
  rw [violations, List.mem_append, List.mem_append, hindent]
  simp only [List.mem_map, List.mem_filter, decide_eq_true_eq, and_assoc, eq_comm (a := e)]

theorem violations_eq_nil_iff (s : Settings) : s.violations = [] ↔ s.IsUsable := by
  rw [List.eq_nil_iff_forall_not_mem]
  constructor
  · intro h
    refine ⟨fun tag htag hblank => ?_, fun hindent => ?_, fun window hwindow hzero => ?_⟩
    · exact h _ (mem_violations_iff.mpr (.inl ⟨tag, htag, List.all_eq_true.mpr hblank, rfl⟩))
    · exact h _ (mem_violations_iff.mpr (.inr (.inl ⟨hindent, rfl⟩)))
    · exact h _ (mem_violations_iff.mpr (.inr (.inr ⟨window, hwindow, hzero, rfl⟩)))
  · rintro ⟨htags, hindent, hwindows⟩ e he
    rcases mem_violations_iff.mp he with ⟨tag, htag, hblank, -⟩ | ⟨heq, -⟩ |
      ⟨window, hwindow, hzero, -⟩
    · exact htags tag htag (List.all_eq_true.mp hblank)
    · exact hindent heq
    · exact hwindows window hwindow hzero

/-- The defaults make sense. -/
theorem isUsable_default : default.IsUsable := by
  rw [← violations_eq_nil_iff]
  decide

theorem firstError?_eq (s : Settings) : s.firstError? = s.violations.head? := by
  by_cases hinline : s.inlineTag.isBlank
  · simp [firstError?, violations, tagNames, hinline]
  by_cases hblock : s.blockTag.isBlank
  · simp [firstError?, violations, tagNames, hinline, hblock]
  by_cases hselfClosing : s.selfClosingTag.isBlank
  · simp [firstError?, violations, tagNames, hinline, hblock, hselfClosing]
  by_cases hindent : s.indent = .spaces 0
  · simp [firstError?, violations, tagNames, hinline, hblock, hselfClosing, hindent]
  · simp [firstError?, violations, tagNames, hinline, hblock, hselfClosing, hindent,
      s.limits.firstEmpty?_eq, Function.comp_def]

theorem Given.IsWritten.perm (h : given.IsWritten fields) (hperm : fields'.Perm fields) :
    given.IsWritten fields' where
  texts field hfield := h.texts field (hperm.subset hfield)
  inlineTag := h.inlineTag.perm hperm
  blockTag := h.blockTag.perm hperm
  selfClosingTag := h.selfClosingTag.perm hperm
  autoRename := h.autoRename.perm hperm
  indent := h.indent.perm hperm
  limits := h.limits.perm hperm

theorem Given.IsWritten.ofJson?_eq (h : given.IsWritten fields) :
    Settings.ofJson? (.object fields) = some given.overlay := by
  obtain ⟨_, hinline, hreadInline⟩ := h.inlineTag.exists_field
  obtain ⟨_, hblock, hreadBlock⟩ := h.blockTag.exists_field
  obtain ⟨_, hselfClosing, hreadSelfClosing⟩ := h.selfClosingTag.exists_field
  obtain ⟨_, hrename, hreadRename⟩ := h.autoRename.exists_field
  obtain ⟨_, hindent, hreadIndent⟩ := h.indent.exists_field
  obtain ⟨_, hlimits, hreadLimits⟩ := h.limits.exists_field
  have htext (name : Text) (j : Json) (h : j = .string (some name)) : j.asText? = some name :=
    h ▸ rfl
  have hbool (b : Bool) (j : Json) (h : j = .bool b) : j.asBool? = some b := h ▸ rfl
  simp only [Settings.ofJson?, Json.asRecord?_object h.texts, fieldNames, List.map_cons,
    List.map_nil, List.mapM_cons, List.mapM_nil, hinline, hblock, hselfClosing, hrename, hindent,
    hlimits, Option.bind_eq_bind, Option.bind_some, Option.pure_def,
    hreadInline _ _ id htext, hreadBlock _ _ id htext, hreadSelfClosing _ _ id htext,
    hreadRename _ _ id hbool, hreadIndent _ _ id fun _ _ h => h.ofJson?_eq,
    hreadLimits _ _ _ fun _ _ h => h.ofJson?_eq, Option.map_id, id, overlay]

/-- The settings of a text that gives some are checked, or refused for the first thing about them
that makes no sense. -/
theorem parse_of_isWritten (hspelled : Json.IsSpelled (.object fields) t)
    (h : given.IsWritten fields) :
    parse t = match given.overlay.violations.head? with
      | none => .ok given.overlay
      | some e => .error e := by
  rw [parse, Json.parse?_of_isSpelled hspelled, Option.bind_eq_bind, Option.bind_some, h.ofJson?_eq,
    ← firstError?_eq]
  dsimp only
  cases given.overlay.firstError? with
  | none => rfl
  | some e => rfl

/-- An object that gives some of the settings, with fields in any order and other fields among them,
is read as the defaults with the given settings in their places just when these are usable. If they
are not, the first thing that makes no sense is reported: a tag name, the indentation, or a limit.
This does not depend on the order of the fields. -/
theorem parse_eq_overlay_iff (hspelled : Json.IsSpelled (.object fields) t)
    (h : given.IsWritten fields) :
    (parse t = .ok given.overlay ↔ given.overlay.IsUsable) ∧
      (¬given.overlay.IsUsable →
        ∃ e, given.overlay.violations.head? = some e ∧ parse t = .error e) ∧
      ∀ fields' t', fields'.Perm fields → Json.IsSpelled (.object fields') t' →
        parse t' = parse t := by
  have hparse := parse_of_isWritten hspelled h
  rw [← violations_eq_nil_iff]
  refine ⟨?_, ?_, ?_⟩
  · rw [hparse]
    cases given.overlay.violations with
    | nil => exact iff_of_true rfl rfl
    | cons e later => exact iff_of_false nofun (List.cons_ne_nil _ _)
  · intro hne
    obtain ⟨e, later, heq⟩ := List.exists_cons_of_ne_nil hne
    rw [heq] at hparse ⊢
    exact ⟨e, rfl, hparse⟩
  · intro fields' t' hperm hspelled'
    rw [hparse, parse_of_isWritten hspelled' (h.perm hperm)]

/-! ## Texts that give some settings -/

/-- A flag, and the first limit of an array. -/
def flagFields : List (Option Text × Json) :=
  [(some "autoRename".toList, .bool false), (some "limits".toList, .array [.number ['7']])]

/-- A limit and a tag name that make no sense, with a field that means nothing in between. -/
def senselessFields : List (Option Text × Json) :=
  [(some "limits".toList, .object [(some "pairedLines".toList, .number ['0'])]),
    (some "more".toList, .array []), (some "defaultInlineTag".toList, .string (some [' ']))]

theorem isSpelled_flagFields :
    Json.IsSpelled (.object flagFields)
      "\x7b\x22autoRename\x22: false,\x22limits\x22:[7]\x7d".toList := by
  have hnone : Json.IsBlanks [] := List.forall_mem_nil _
  have hblank : Json.IsBlanks [' '] := List.forall_mem_singleton.mpr rfl
  have hliteral (name : String)
      (h : name.toList.all fun c => c ≠ '\x22' ∧ c ≠ '\\' ∧ 0x20 ≤ c.toNat) :=
    Json.isLiteral_of_plain h
  have hwhole : Json.IsWhole ['7'] :=
    .inr ⟨⟨List.cons_ne_nil _ _, List.forall_mem_singleton.mpr rfl⟩, by decide⟩
  have hseven : Json.IsNumeral ['7'] :=
    ⟨[], ['7'], [], [], .inl rfl, hwhole, .inl rfl, .inl rfl, rfl⟩
  exact .object (.cons hnone (hliteral "autoRename" (by decide)) hnone
    (.padded hblank .false hnone)
    (.one hnone (hliteral "limits" (by decide)) hnone (.array (.one (.number hseven)))))

theorem isWritten_flagFields :
    Given.IsWritten ⟨none, none, none, some false, none, some ⟨some 7, none, none⟩⟩
      flagFields := by
  have hlimits : ScanLimits.Given.IsWritten ⟨some 7, none, none⟩ (.array [.number ['7']]) :=
    @ScanLimits.Given.IsWritten.array [7] (by decide) (by decide)
  refine ⟨by decide, ?_, ?_, ?_, ⟨_, [], flagFields.drop 1, rfl, rfl, by decide⟩, ?_,
    ⟨_, flagFields.take 1, [], hlimits, rfl, by decide⟩⟩
  all_goals
    rw [Json.Gives]
    decide

theorem isSpelled_senselessFields :
    Json.IsSpelled (.object senselessFields)
      ("\x7b\x22limits\x22:\x7b\x22pairedLines\x22:0\x7d,".toList ++
        "\x22more\x22: [ ],\x22defaultInlineTag\x22:\x22 \x22\x7d".toList) := by
  have hnone : Json.IsBlanks [] := List.forall_mem_nil _
  have hblank : Json.IsBlanks [' '] := List.forall_mem_singleton.mpr rfl
  have hliteral (name : String)
      (h : name.toList.all fun c => c ≠ '\x22' ∧ c ≠ '\\' ∧ 0x20 ≤ c.toNat) :=
    Json.isLiteral_of_plain h
  have hzero : Json.IsNumeral ['0'] :=
    ⟨[], ['0'], [], [], .inl rfl, .inl rfl, .inl rfl, .inl rfl, rfl⟩
  exact .object (.cons hnone (hliteral "limits" (by decide)) hnone
    (.object (.one hnone (hliteral "pairedLines" (by decide)) hnone (.number hzero)))
    (.cons hnone (hliteral "more" (by decide)) hnone
      (.padded hblank (.emptyArray hblank) hnone)
      (.one hnone (hliteral "defaultInlineTag" (by decide)) hnone
        (.string (hliteral " " (by decide))))))

theorem isWritten_senselessFields :
    Given.IsWritten ⟨some [' '], none, none, none, none, some ⟨none, some 0, none⟩⟩
      senselessFields := by
  have hlimits : ScanLimits.Given.IsWritten ⟨none, some 0, none⟩
      (.object [(some "pairedLines".toList, .number ['0'])]) := by
    refine .object (by decide) ?_ ⟨_, [], [], ⟨Nat.zero_le _, rfl⟩, rfl, by decide⟩ ?_
    all_goals
      rw [Json.Gives]
      decide
  refine ⟨by decide, ⟨_, senselessFields.take 2, [], rfl, rfl, by decide⟩, ?_, ?_, ?_, ?_,
    ⟨_, [], senselessFields.drop 1, hlimits, rfl, by decide⟩⟩
  all_goals
    rw [Json.Gives]
    decide

/-- The flag and the limit are read, and the rest are the defaults. Of what makes no sense the tag
name is reported, which comes later in the text than the limit. -/
theorem parse_eq_overlay_iff_partial :
    let given : Given := ⟨none, none, none, some false, none, some ⟨some 7, none, none⟩⟩
    let senseless : Given := ⟨some [' '], none, none, none, none, some ⟨none, some 0, none⟩⟩
    let t := "\x7b\x22autoRename\x22: false,\x22limits\x22:[7]\x7d".toList
    let u := "\x7b\x22limits\x22:\x7b\x22pairedLines\x22:0\x7d,".toList ++
      "\x22more\x22: [ ],\x22defaultInlineTag\x22:\x22 \x22\x7d".toList
    (Json.IsSpelled (.object flagFields) t ∧ given.IsWritten flagFields ∧
      given.overlay.IsUsable ∧
      parse t = .ok { default with autoRename := false, limits := ⟨7, 1000, 1000⟩ }) ∧
    Json.IsSpelled (.object senselessFields) u ∧ senseless.IsWritten senselessFields ∧
      ¬senseless.overlay.IsUsable ∧ parse u = .error (.emptyTagName "defaultInlineTag") := by
  intro given senseless t u
  have husable : given.overlay.IsUsable := by
    rw [← violations_eq_nil_iff]
    decide
  have hnot : ¬senseless.overlay.IsUsable := by
    rw [← violations_eq_nil_iff]
    decide
  obtain ⟨hok, -⟩ := parse_eq_overlay_iff isSpelled_flagFields isWritten_flagFields
  obtain ⟨-, herror, -⟩ := parse_eq_overlay_iff isSpelled_senselessFields isWritten_senselessFields
  obtain ⟨e, hfirst, hparse⟩ := herror hnot
  obtain rfl : SettingsError.emptyTagName "defaultInlineTag" = e := Option.some.inj hfirst
  exact ⟨⟨isSpelled_flagFields, isWritten_flagFields, husable, hok.mpr husable⟩,
    isSpelled_senselessFields, isWritten_senselessFields, hnot, hparse⟩

end Settings

end MarkupPairs
