import StyledMap.Proofs.Json.Returns
import StyledMap.Proofs.Text.Bytes
import StyledMap.Request.Reply

/-! The bodies of reports. Whatever a message quotes, a client reads the kind and the message of a fault
back from the body, character for character. -/
namespace StyledMap

namespace Json
open Text (digit?)

/-- No control character is among them. -/
def Printable (cs : List Char) : Prop := ∀ c ∈ cs, 0x20 ≤ c.toNat

theorem printable_nil : Printable [] := by simp [Printable]

@[simp] theorem printable_cons {c : Char} {cs : List Char} :
    Printable (c :: cs) ↔ 0x20 ≤ c.toNat ∧ Printable cs := List.forall_mem_cons

@[simp] theorem printable_append {cs ds : List Char} :
    Printable (cs ++ ds) ↔ Printable cs ∧ Printable ds := List.forall_mem_append

theorem printable_of_hexDigit? {c : Char} {d : Nat} (h : hexDigit? c = some d) : 0x20 ≤ c.toNat := by
  have hle {low : Char} (hlow : 0x20 ≤ low.toNat) (hc : low ≤ c) : 0x20 ≤ c.toNat :=
    hlow.trans hc
  unfold hexDigit? digit? at h
  split at h
  · rename_i hin
    exact hle (by decide) hin.1
  · split at h
    · rename_i hin
      exact hle (by decide) hin.1
    · split at h
      · rename_i hin
        exact hle (by decide) hin.1
      · cases h

theorem printable_of_escaped? {letter c : Char} (h : escaped? letter = some c) :
    0x20 ≤ letter.toNat := by
  unfold escaped? at h
  split at h
  any_goals decide
  cases h

theorem Piece.Spelled.printable {p : Piece} {word : List Char} (h : p.Spelled word) :
    Printable word := by
  cases h with
  | plain _ _ hcontrol => simpa [Printable] using hcontrol
  | escaped h => simpa [Printable] using printable_of_escaped? h
  | unit h =>
    simp only [unit?, Option.bind_eq_bind, Option.bind_eq_some_iff] at h
    obtain ⟨_, ha, _, hb, _, hc, _, hd, -⟩ := h
    simp [Printable, printable_of_hexDigit? ha, printable_of_hexDigit? hb,
      printable_of_hexDigit? hc, printable_of_hexDigit? hd]

/-- What is spelled within quotes has no control character: those that a string has are escaped. -/
theorem Body.printable {ps : List Piece} {cs : List Char} (h : Body ps cs) : Printable cs := by
  induction h with
  | nil => exact printable_nil
  | cons hp _ ih => exact printable_append.2 ⟨hp.printable, ih⟩

theorem printable_quoted (s : String) : Printable (quoted s) := by
  simp [quoted, (body_pieces s).printable, printable_nil]

theorem Returns.holds_compact {v : Json} (h : v.Returns depthLimit) : Holds v.compact v := by
  refine ⟨v.tree, ?_, Tree.value?_eq_some.1 h.value?⟩
  rw [compact, String.toList_ofList]
  exact h.spells_compact

end Json

namespace Request

theorem Kind.name_inj {k l : Kind} : k.name = l.name ↔ k = l := by
  constructor
  · intro h
    cases k <;> cases l <;> first | rfl | exact absurd h (by decide)
  · rintro rfl
    rfl

namespace Report

/-- What a client reads in a report. -/
def value (r : Report) : Json :=
  .object [("kind", .string r.kind.name), ("message", .string r.message)]

theorem value_inj {r r' : Report} : r.value = r'.value ↔ r = r' := by
  cases r
  cases r'
  simp [value, Kind.name_inj]

theorem parse?_json (r : Report) : Json.parse? r.json = some r.value := by
  have hreturns : r.value.Returns Json.depthLimit := by
    refine .object (by simp) (fun m hm => ?_)
    simp only [List.mem_cons, List.not_mem_nil, or_false] at hm
    obtain rfl | rfl := hm
    · exact .string _
    · exact .string _
  exact Json.parse?_eq_some.2 hreturns.holds_compact

theorem printable_json (r : Report) : Json.Printable r.json.toList := by
  simp [json, Json.compact, Json.compactChars, Json.compactMembers, Json.printable_quoted,
    Json.printable_nil]

end Report

/-- A reply that tells a kind and a message in the text of its body. -/
structure Payload (s : String) (kind : Kind) (message : String) (r : Reply) : Prop where
  body : r.body = s.toUTF8
  value : Json.parse? s =
    some (.object [("kind", .string kind.name), ("message", .string message)])
  printable : Json.Printable s.toList
  length : r.headers.lookup "Content-Length" = some (Text.nat (s.toList.map Char.utf8Size).sum)

theorem Report.payload (r : Report) : Payload r.json r.kind r.message (.report r) where
  body := rfl
  value := r.parse?_json
  printable := r.printable_json
  length := by
    rw [← Text.size_toUTF8]
    rfl

/-- The text of a body is all that a client needs: it has no other reading. -/
theorem Report.body_inj {r r' : Report} : (Reply.report r).body = (Reply.report r').body ↔ r = r' := by
  constructor
  · intro h
    have htext : r.json = r'.json := by
      rw [← Option.some.injEq, ← Text.fromUTF8?_toUTF8, ← Text.fromUTF8?_toUTF8]
      exact congrArg String.fromUTF8? h
    have hvalue := r.parse?_json
    rw [htext, r'.parse?_json, Option.some.injEq, value_inj] at hvalue
    exact hvalue.symm
  · rintro rfl
    rfl

/-- Faults are told as they are: the body of a reply to a fault is a JSON object of the name of its kind
and its message, whatever characters these have, without a control character and as long as the header
says in bytes. Of any two reports, those of faults among them, the bodies differ if the kinds or the
messages do. -/
theorem faults_told :
    (∀ f : Fault, ∃ s, Payload s f.kind f.message (.ofFault f)) ∧
    (∀ r : Report, ∃ s, Payload s r.kind r.message (.report r)) ∧
    (∀ f g : Fault, (Reply.ofFault f).body = (Reply.ofFault g).body ↔
      f.kind = g.kind ∧ f.message = g.message) ∧
    ∀ r r' : Report, (Reply.report r).body = (Reply.report r').body ↔ r = r' := by
  refine ⟨fun f => ⟨_, (Report.ofFault f).payload⟩, fun r => ⟨_, r.payload⟩, fun f g => ?_,
    fun r r' => Report.body_inj⟩
  rw [Reply.ofFault, Reply.ofFault, Report.body_inj, Report.ofFault, Report.ofFault, Report.mk.injEq]

end Request
end StyledMap
