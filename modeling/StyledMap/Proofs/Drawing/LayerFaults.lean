import StyledMap.Proofs.Drawing.LayerShapes
import StyledMap.Proofs.Drawing.LayerTexts
import StyledMap.Proofs.Drawing.StyleFaults

/-! What can be wrong with layers whose text has the right shape, listed in the order in which it is
looked for: the texts of a layer before its status, the texts in its source before the kind, the kind
before the fields it asks for, and their shape before the text of the port. The first fault of the
first layer that has any is reported. -/
namespace StyledMap.Drawing
open Json (givenAs)
open Steps

def statusWords : List String := ["on", "enabled", "off", "disabled"]

def statusFaults (layer : String) : Option StatusEntry → List Fault
  | some (.word s) =>
    if ∃ word ∈ statusWords, AnyCase word s then []
    else [.invalid ("layer '" ++ layer ++ "' status")
      ("'" ++ s ++ "' is not one of on, off, enabled, disabled")]
  | _ => []

/-- A source is searched for illegal characters under all names, but only in strings themselves. -/
def fieldFaults (layer : String) (field : String × Json) : List Fault :=
  match field.2 with
  | .string text => textFaults ("layer '" ++ layer ++ "' source " ++ field.1) text
  | _ => []

inductive FieldType where
  | text
  | flag
  | port
  deriving Repr, DecidableEq

/-- A port may be null, a number of 16 bits, or any string at first. -/
def FieldType.fits : FieldType → Json → Bool
  | .text, .string _ => true
  | .flag, .bool _ => true
  | .port, .null => true
  | .port, .number (.natural n) => n ≤ Text.maxUnsigned16
  | .port, .string _ => true
  | _, _ => false

/-- A field that a kind of source asks for. -/
structure SourceField where
  names : List String
  type : FieldType
  required : Bool
  deriving Repr, DecidableEq

/-- A field is given under one name at most, and left out only if it may be. -/
def SourceField.fits (f : SourceField) (fields : List (String × Json)) : Bool :=
  match givenAs f.names fields with
  | [] => !f.required
  | [v] => f.type.fits v
  | _ => false

def databaseFields : List SourceField :=
  [⟨["type"], .text, true⟩, ⟨["host"], .text, true⟩, ⟨["port"], .port, false⟩,
    ⟨["dbname"], .text, true⟩, ⟨["user"], .text, true⟩, ⟨["password"], .text, false⟩,
    ⟨["estimate_extent", "estimateExtent"], .flag, false⟩, ⟨["table"], .text, true⟩]

def fileFields : List SourceField := [⟨["type"], .text, true⟩, ⟨["path", "file"], .text, true⟩]

def shapeFaults (asked : List SourceField) (fields : List (String × Json)) : List Fault :=
  if asked.all (fun f => f.fits fields) then [] else [.malformed]

/-- Without the blanks around it, digits of a number of 16 bits, after a plus sign or not. -/
def IsPort (s : String) : Prop :=
  ∃ n, Request.Side (Text.trim s.toList) n ∧ n ≤ Text.maxUnsigned16

theorem isPort_iff {s : String} :
    IsPort s ↔ (Text.unsigned? Text.maxUnsigned16 (Text.trim s.toList)).isSome = true := by
  rw [Option.isSome_iff_exists]
  exact exists_congr fun n => Request.unsigned?_eq_some.symm

instance (s : String) : Decidable (IsPort s) := decidable_of_iff' _ isPort_iff

def portFaults (layer : String) (fields : List (String × Json)) : List Fault :=
  match givenAs ["port"] fields with
  | [.string s] =>
    if IsPort s then []
    else [.invalid ("layer '" ++ layer ++ "' port") ("'" ++ s ++ "' is not a valid port number")]
  | _ => []

/-- What is wrong with a source for the kind that it says it is. -/
def kindFaults (layer : String) (e : SourceEntry) : List Fault :=
  if e.kind = "database" then shapeFaults databaseFields e.fields ++ portFaults layer e.fields
  else if e.kind = "file" then shapeFaults fileFields e.fields
  else [.unknownSource layer e.kind]

def SourceEntry.faults (layer : String) (e : SourceEntry) : List Fault :=
  e.fields.flatMap (fieldFaults layer) ++ kindFaults layer e

/-- All that is wrong with a layer, in order. -/
def LayerEntry.faults (e : LayerEntry) : List Fault :=
  textFaults "layer name" e.name ++ (textFaults ("layer '" ++ e.name ++ "' style") e.style ++
    (textFaults ("layer '" ++ e.name ++ "' srs") e.srs ++
      (statusFaults e.name e.status ++ e.source.faults e.name)))

/- The model of a layer has everything that the entry says. -/

inductive StatusMakes : Option StatusEntry → Layer.Status → Prop where
  | missing : StatusMakes none .on
  | flag (b : Bool) : StatusMakes (some (.flag b)) (if b then .on else .off)
  | on {word s : String} (hw : word ∈ ["on", "enabled"]) (hs : AnyCase word s) :
      StatusMakes (some (.word s)) .on
  | off {word s : String} (hw : word ∈ ["off", "disabled"]) (hs : AnyCase word s) :
      StatusMakes (some (.word s)) .off

/-- The port that the values under its name come to. -/
inductive PortMakes : List Json → Nat → Prop where
  | missing : PortMakes [] defaultPort
  | null : PortMakes [.null] defaultPort
  | number {n : Nat} (h : n ≤ Text.maxUnsigned16) : PortMakes [.number (.natural n)] n
  | text {s : String} {n : Nat} (h : Request.Side (Text.trim s.toList) n)
      (small : n ≤ Text.maxUnsigned16) : PortMakes [.string s] n

structure DatabaseMakes (fields : List (String × Json)) (d : Layer.Database) : Prop where
  driver : givenAs ["type"] fields = [.string d.driver]
  host : givenAs ["host"] fields = [.string d.host]
  port : PortMakes (givenAs ["port"] fields) d.port
  dbname : givenAs ["dbname"] fields = [.string d.dbname]
  user : givenAs ["user"] fields = [.string d.user]
  password : givenAs ["password"] fields = [] ∧ d.password = "" ∨
    givenAs ["password"] fields = [.string d.password]
  estimateExtent : givenAs ["estimate_extent", "estimateExtent"] fields = [] ∧ d.estimateExtent = false ∨
    givenAs ["estimate_extent", "estimateExtent"] fields = [.bool d.estimateExtent]
  table : givenAs ["table"] fields = [.string d.table]

inductive SourceEntry.Makes (e : SourceEntry) : Layer.Source → Prop where
  | database {d : Layer.Database} (h : e.kind = "database") (hd : DatabaseMakes e.fields d) :
      Makes e (.database d)
  | file {f : Layer.File} (h : e.kind = "file") (driver : givenAs ["type"] e.fields = [.string f.driver])
      (path : givenAs ["path", "file"] e.fields = [.string f.path]) : Makes e (.file f)

structure LayerEntry.Makes (e : LayerEntry) (l : Layer) : Prop where
  name : l.name = e.name
  style : l.style = e.style
  srs : l.srs = e.srs
  status : StatusMakes e.status l.status
  source : e.source.Makes l.source

theorem status_reports (layer : String) (status : Option StatusEntry) :
    Reports (statusOf layer status) (statusFaults layer status) := by
  match status with
  | none => exact ⟨_, rfl⟩
  | some (.flag b) => exact ⟨_, rfl⟩
  | some (.word s) =>
    rw [statusOf, statusFaults]
    split
    · rename_i hon
      rw [if_pos ⟨_, List.mem_append_left ["off", "disabled"] hon, anyCase_lowerCase s⟩]
      exact ⟨_, rfl⟩
    · rename_i hon
      split
      · rename_i hoff
        rw [if_pos ⟨_, List.mem_append_right ["on", "enabled"] hoff, anyCase_lowerCase s⟩]
        exact ⟨_, rfl⟩
      · rename_i hoff
        have hnone : ¬∃ word ∈ statusWords, AnyCase word s := by
          intro h
          have hmem := (lowerCase_mem_iff statusWords_small s).2 h
          exact (List.mem_append (s := ["on", "enabled"]).1 hmem).elim hon hoff
        rw [if_neg hnone]
        rfl

theorem statusOf_makes {layer : String} {status : Option StatusEntry} {made : Layer.Status}
    (h : statusOf layer status = .ok made) : StatusMakes status made := by
  match status with
  | none =>
    obtain rfl := Except.ok.inj h
    exact .missing
  | some (.flag b) =>
    obtain rfl := Except.ok.inj h
    exact .flag b
  | some (.word s) =>
    rw [statusOf] at h
    split at h
    · rename_i hon
      obtain rfl := Except.ok.inj h
      exact .on hon (anyCase_lowerCase s)
    · split at h
      · rename_i hoff
        obtain rfl := Except.ok.inj h
        exact .off hoff (anyCase_lowerCase s)
      · cases h

/-! Fields of a source: when they can be read, and what is then read. -/

theorem checkSourceField_reports (layer : String) (field : String × Json) :
    Reports (checkSourceField layer field) (fieldFaults layer field) := by
  obtain ⟨name, v⟩ := field
  cases v with
  | string text => exact checkText_reports _ _
  | _ => exact ⟨(), rfl⟩

section Fields
variable {names : List String} {fields : List (String × Json)}

theorem textField?_isSome :
    (textField? names fields).isSome = SourceField.fits ⟨names, .text, true⟩ fields := by
  unfold textField? field? SourceField.fits
  match givenAs names fields with
  | [] | _ :: _ :: _ => rfl
  | [v] => cases v <;> rfl

theorem textFieldOr?_isSome (missing : String) :
    (textFieldOr? missing names fields).isSome = SourceField.fits ⟨names, .text, false⟩ fields := by
  unfold textFieldOr? field? SourceField.fits
  match givenAs names fields with
  | [] | _ :: _ :: _ => rfl
  | [v] => cases v <;> rfl

theorem flagField?_isSome :
    (flagField? names fields).isSome = SourceField.fits ⟨names, .flag, false⟩ fields := by
  unfold flagField? field? SourceField.fits
  match givenAs names fields with
  | [] | _ :: _ :: _ => rfl
  | [v] => cases v <;> rfl

theorem portField?_isSome :
    (portField? fields).isSome = SourceField.fits ⟨["port"], .port, false⟩ fields := by
  unfold portField? field? SourceField.fits
  match givenAs ["port"] fields with
  | [] | _ :: _ :: _ => rfl
  | [.number (.natural n)] =>
    by_cases hn : n ≤ Text.maxUnsigned16 <;> simp [FieldType.fits, hn]
  | [.number (.below _)] | [.number (.float _)] => rfl
  | [.null] | [.bool _] | [.string _] | [.array _] | [.object _] => rfl

theorem textField?_eq_some {s : String} :
    textField? names fields = some s ↔ givenAs names fields = [.string s] := by
  unfold textField? field?
  match givenAs names fields with
  | [] | _ :: _ :: _ => simp
  | [v] => cases v <;> simp

theorem textFieldOr?_eq_some {missing s : String} : textFieldOr? missing names fields = some s ↔
    givenAs names fields = [] ∧ s = missing ∨ givenAs names fields = [.string s] := by
  unfold textFieldOr? field?
  match givenAs names fields with
  | [] => simp [eq_comm]
  | _ :: _ :: _ => simp
  | [v] => cases v <;> simp

theorem flagField?_eq_some {b : Bool} : flagField? names fields = some b ↔
    givenAs names fields = [] ∧ b = false ∨ givenAs names fields = [.bool b] := by
  unfold flagField? field?
  match givenAs names fields with
  | [] => simp [eq_comm]
  | _ :: _ :: _ => simp
  | [v] => cases v <;> simp

/-- What the values under its name say of a port, before a text among them is read. -/
inductive PortEntry.Given : PortEntry → List Json → Prop where
  | missing : Given .missing []
  | null : Given .missing [.null]
  | number {n : Nat} (h : n ≤ Text.maxUnsigned16) : Given (.number n) [.number (.natural n)]
  | text (s : String) : Given (.text s) [.string s]

theorem portField?_given {port : PortEntry} (h : portField? fields = some port) :
    port.Given (givenAs ["port"] fields) := by
  unfold portField? field? at h
  match hg : givenAs ["port"] fields with
  | [] | [.null] =>
    rw [hg] at h
    obtain rfl := Option.some.inj h
    constructor
  | [.number (.natural n)] =>
    simp only [hg] at h
    split at h
    · rename_i hn
      obtain rfl := Option.some.inj h
      exact .number hn
    · cases h
  | [.string s] =>
    rw [hg] at h
    obtain rfl := Option.some.inj h
    exact .text s
  | [.number (.below _)] | [.number (.float _)] | [.bool _] | [.array _] | [.object _] | _ :: _ :: _ =>
    rw [hg] at h
    cases h

theorem port_reports (layer : String) {port : PortEntry} (h : portField? fields = some port) :
    Reports (port.port layer) (portFaults layer fields) := by
  have hgiven := portField?_given h
  unfold portFaults
  generalize givenAs ["port"] fields = vs at hgiven
  cases hgiven with
  | missing | null | number => exact ⟨_, rfl⟩
  | text s =>
    rw [PortEntry.port]
    cases hn : Text.unsigned? Text.maxUnsigned16 (Text.trim s.toList) with
    | none => simp [isPort_iff, hn, Reports]
    | some n => simp [isPort_iff, hn, Reports]

theorem port_makes {layer : String} {port : PortEntry} {n : Nat} (h : portField? fields = some port)
    (hn : port.port layer = .ok n) : PortMakes (givenAs ["port"] fields) n := by
  have hgiven := portField?_given h
  generalize givenAs ["port"] fields = vs at hgiven
  cases hgiven with
  | missing =>
    obtain rfl := Except.ok.inj hn
    exact .missing
  | null =>
    obtain rfl := Except.ok.inj hn
    exact .null
  | number hsmall =>
    obtain rfl := Except.ok.inj hn
    exact .number hsmall
  | text s =>
    rw [PortEntry.port] at hn
    split at hn
    · rename_i m hm
      obtain rfl := Except.ok.inj hn
      obtain ⟨hside, hsmall⟩ := Request.unsigned?_eq_some.1 hm
      exact .text hside hsmall
    · cases hn

theorem isSome_bind_of {α β : Type} {o : Option α} {f : α → Option β} {b : Bool}
    (h : ∀ a, (f a).isSome = b) : (o.bind f).isSome = (o.isSome && b) := by
  cases o with
  | none => rfl
  | some a => exact h a

theorem database?_isSome : (database? fields).isSome = databaseFields.all (fun f => f.fits fields) := by
  simp only [databaseFields, List.all_cons, List.all_nil, Bool.and_true, ← textField?_isSome,
    ← portField?_isSome, ← flagField?_isSome, ← textFieldOr?_isSome ""]
  unfold database?
  repeat' refine isSome_bind_of fun _ => ?_
  cases textField? ["table"] fields <;> rfl

theorem file?_isSome : (file? fields).isSome = fileFields.all (fun f => f.fits fields) := by
  simp only [fileFields, List.all_cons, List.all_nil, Bool.and_true, ← textField?_isSome]
  unfold file?
  exact isSome_bind_of fun _ => by cases textField? ["path", "file"] fields <;> rfl

theorem database?_eq_some {port : PortEntry} {make : Nat → Layer.Database}
    (h : database? fields = some (port, make)) : portField? fields = some port ∧
      ∀ n, PortMakes (givenAs ["port"] fields) n → DatabaseMakes fields (make n) := by
  simp only [database?, Option.bind_eq_bind, Option.bind_eq_some_iff, Option.pure_def,
    Option.some.injEq, Prod.mk.injEq, textField?_eq_some, textFieldOr?_eq_some,
    flagField?_eq_some] at h
  obtain ⟨driver, hdriver, host, hhost, p, hport, dbname, hdbname, user, huser, password, hpassword,
    extent, hextent, table, htable, rfl, rfl⟩ := h
  exact ⟨hport, fun n hn => ⟨hdriver, hhost, hn, hdbname, huser, hpassword, hextent, htable⟩⟩

theorem file?_eq_some {f : Layer.File} (h : file? fields = some f) :
    givenAs ["type"] fields = [.string f.driver] ∧ givenAs ["path", "file"] fields = [.string f.path] := by
  simp only [file?, Option.bind_eq_bind, Option.bind_eq_some_iff, Option.pure_def,
    Option.some.injEq, textField?_eq_some] at h
  obtain ⟨driver, hdriver, path, hpath, rfl⟩ := h
  exact ⟨hdriver, hpath⟩

end Fields

/-! Sources and layers. -/

theorem source_reports (layer : String) (e : SourceEntry) :
    Reports (e.source layer) (e.faults layer) := by
  refine (Reports.forM fun field _ => checkSourceField_reports layer field).bind fun _ _ => ?_
  -- fields of the wrong shape hide what is wrong with the port, as the first of two faults
  unfold kindFaults shapeFaults
  rw [← database?_isSome, ← file?_isSome]
  split
  · cases hd : database? e.fields with
    | none => rfl
    | some made =>
      obtain ⟨port, make⟩ := made
      exact (port_reports layer (database?_eq_some hd).1).map
  · split
    · cases file? e.fields with
      | none => rfl
      | some f => exact ⟨_, rfl⟩
    · rfl

theorem source_makes {layer : String} {e : SourceEntry} {made : Layer.Source}
    (h : e.source layer = .ok made) : e.Makes made := by
  obtain ⟨⟨⟩, -, h⟩ := bind_eq_ok.1 h
  split at h
  · rename_i hkind
    split at h
    · cases h
    · rename_i port make hd
      obtain ⟨n, hn, h⟩ := bind_eq_ok.1 h
      obtain rfl := pure_eq_ok.1 h
      obtain ⟨hport, hmakes⟩ := database?_eq_some hd
      exact .database hkind (hmakes n (port_makes hport hn))
  · split at h
    · rename_i hkind
      split at h
      · cases h
      · rename_i f hf
        obtain rfl := pure_eq_ok.1 h
        exact .file hkind (file?_eq_some hf).1 (file?_eq_some hf).2
    · cases h

theorem layer_reports (e : LayerEntry) : Reports e.layer e.faults :=
  (checkText_reports _ _).bind fun _ _ =>
  (checkText_reports _ _).bind fun _ _ =>
  (checkText_reports _ _).bind fun _ _ =>
  (status_reports e.name e.status).bind fun _ _ => (source_reports e.name e.source).map

theorem layer_makes {e : LayerEntry} {l : Layer} (h : e.layer = .ok l) : e.Makes l := by
  obtain ⟨⟨⟩, -, h⟩ := bind_eq_ok.1 h
  obtain ⟨⟨⟩, -, h⟩ := bind_eq_ok.1 h
  obtain ⟨⟨⟩, -, h⟩ := bind_eq_ok.1 h
  obtain ⟨status, hstatus, h⟩ := bind_eq_ok.1 h
  obtain ⟨source, hsource, h⟩ := bind_eq_ok.1 h
  obtain rfl := pure_eq_ok.1 h
  exact ⟨rfl, rfl, rfl, statusOf_makes hstatus, source_makes hsource⟩

/-- A text that has the shape of layers is read exactly if none of them has anything wrong with it, one
layer for each entry, in order. Otherwise the first layer with a fault has its first fault reported. A
text of another shape is malformed. -/
theorem readLayers_first_fault (text : String) :
    ((∀ entries, ¬LayerEntry.ShapeOf entries text) → readLayers text = .error .malformed) ∧
    ∀ entries, LayerEntry.ShapeOf entries text →
      ((∃ layers, readLayers text = .ok layers) ↔ ∀ e ∈ entries, e.faults = []) ∧
      (∀ layers, readLayers text = .ok layers → List.Forall₂ LayerEntry.Makes entries layers) ∧
      ∀ f, readLayers text = .error f ↔ ∃ before e after, entries = before ++ e :: after ∧
        (∀ d ∈ before, d.faults = []) ∧ e.faults.head? = some f := by
  refine ⟨fun h => ?_, fun entries h => ?_⟩
  · cases he : layerEntries? text with
    | none => rw [readLayers, he]
    | some entries => exact absurd (layerEntries?_eq_some.1 he) (h entries)
  · have hread : readLayers text = entries.mapM LayerEntry.layer := by
      rw [readLayers, layerEntries?_eq_some.2 h]
    have hreports : Reports (entries.mapM LayerEntry.layer) (entries.flatMap LayerEntry.faults) :=
      Reports.mapM fun e _ => layer_reports e
    rw [hread]
    refine ⟨?_, fun layers hl => (mapM_eq_ok.1 hl).imp fun _ _ => layer_makes, fun f => ?_⟩
    · rw [hreports.ok_iff, List.flatMap_eq_nil_iff]
    · rw [hreports.error_iff, head?_flatMap]

/-- A layer without fault, and one with an unknown kind and three illegal characters. Of these the first
is no longer there, since its field is given again. -/
def noteFaults : String :=
  "[[\"a\",\"s\",\"x\",\"OFF\",\x7b\"kind\":\"file\",\"type\":\"t\",\"file\":\"p\"\x7d]," ++
  "[\"b\",\"s\",\"x\",null,\x7b\"note\":\"\\u0001\",\"kind\":\"wfs\",\"host\":\"\\u0002\"," ++
  "\"note\":\"\\u0003\",\"port\":\"x\"\x7d]]"

def unusable (field code : String) : Fault :=
  .invalid ("layer 'b' source " ++ field) ("contains " ++ code ++ ", which XML documents cannot carry")

theorem readLayers_first_fault_note : ∃ entries, LayerEntry.ShapeOf entries noteFaults ∧
    entries.map LayerEntry.faults =
      [[], [unusable "note" "U+0003", unusable "host" "U+0002", .unknownSource "b" "wfs"]] ∧
    readLayers noteFaults = .error (unusable "note" "U+0003") := by
  have hfaults : (layerEntries? noteFaults).map (fun entries => entries.map LayerEntry.faults) =
      some [[], [unusable "note" "U+0003", unusable "host" "U+0002", .unknownSource "b" "wfs"]] := by
    decide +kernel
  obtain ⟨entries, he, hentries⟩ := Option.map_eq_some_iff.1 hfaults
  have hshape := layerEntries?_eq_some.1 he
  refine ⟨entries, hshape, hentries, ?_⟩
  obtain ⟨a, rest, rfl, ha, hrest⟩ := List.map_eq_cons_iff.1 hentries
  obtain ⟨b, after, rfl, hb, -⟩ := List.map_eq_cons_iff.1 hrest
  refine (((readLayers_first_fault noteFaults).2 _ hshape).2.2 _).2 ⟨[a], b, after, rfl, ?_, ?_⟩
  · exact List.forall_mem_singleton.2 ha
  · rw [hb, List.head?_cons]

end StyledMap.Drawing
