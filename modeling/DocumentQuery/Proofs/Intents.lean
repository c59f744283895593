import DocumentQuery.Proofs.QueryParts
import DocumentQuery.Proofs.RenderedQuery
/-!
# Which intents are told apart

An update may add a document where it finds none, or not; a find may ask for one
document or for all. A dialect that writes such an intent down renders different
texts, whatever the other parts of the query are. A dialect that leaves it out
renders both queries alike: there is no failure, and nothing in the output shows
what was asked for.

Main definitions:
* `Rendered.output`: the text of the object and the names of the parameters.

Results:
* `Query.render_upsert`: only mongo looks at `upsert`.
* `Query.render_findOne`: a find of one document differs from a find of all in the
  header only, where mongo and firestore write the operation.
* `intents_told_apart`: which dialects tell both intents apart.
* `intents_alike`: in couch both intents are lost.
-/
namespace DocumentQuery

open Render (gives_two)

/-- What is made of a query for those who run it. -/
def Rendered.output (r : Rendered) : String × List String := (r.text, r.paramNames)

/-! ## Lengths of texts -/

namespace Json

/-- The length of the entries' texts, each with a colon inside and a comma after it. -/
def width : Entries → Nat
  | [] => 0
  | (key, v) :: es => (quote key).length + (compact v).length + 2 + width es

theorem width_append (es fs : Entries) : width (es ++ fs) = width es + width fs := by
  induction es with
  | nil => simp [width]
  | cons e es ih =>
    rw [List.cons_append, width, width, ih]
    omega

/-- There is one comma less than entries. -/
theorem length_intercalate_comma {es : Entries} (h : es ≠ []) :
    (",".intercalate (compactEntries es)).length + 1 = width es := by
  have hcolon : (":" : String).length = 1 := rfl
  have hcomma : ("," : String).length = 1 := rfl
  induction es with
  | nil => exact absurd rfl h
  | cons e es ih =>
    cases es with
    | nil =>
      simp only [compactEntries, String.intercalate_singleton, String.length_append, hcolon, width]
      omega
    | cons e' es =>
      have hlength := ih (List.cons_ne_nil e' es)
      rw [compactEntries] at hlength
      rw [compactEntries, compactEntries, String.intercalate_cons_cons, width, ← hlength]
      simp only [String.length_append, hcolon, hcomma]
      omega

theorem length_compact_obj {es : Entries} (h : es ≠ []) :
    (compact (.obj es)).length = width es + 1 := by
  have hbrace : ("\x7b" : String).length = 1 ∧ ("\x7d" : String).length = 1 := ⟨rfl, rfl⟩
  rw [compact, enclose, String.length_append, String.length_append, hbrace.1, hbrace.2,
    ← length_intercalate_comma h]
  omega

/-- Objects of different widths have different texts. -/
theorem compact_ne_of_width {es fs : Entries} (hes : es ≠ []) (hfs : fs ≠ [])
    (h : width es ≠ width fs) : compact (.obj es) ≠ compact (.obj fs) := by
  intro heq
  have hlength := congrArg String.length heq
  rw [length_compact_obj hes, length_compact_obj hfs] at hlength
  exact h (Nat.add_right_cancel hlength)

end Json

/-- Renderings of objects of different widths differ in their texts. -/
theorem Rendered.output_ne_of_width {r r' : Rendered} {es fs : Entries} (hr : r.body = .obj es)
    (hr' : r'.body = .obj fs) (hes : es ≠ []) (hfs : fs ≠ [])
    (h : Json.width es ≠ Json.width fs) : r.output ≠ r'.output := by
  intro heq
  have htext : r.text = r'.text := congrArg Prod.fst heq
  rw [Rendered.text, Rendered.text, hr, hr'] at htext
  exact Json.compact_ne_of_width hes hfs h htext

namespace Query

variable {q : Query} {dialect : Dialect} {r : Rendered}

/-! ## Updates that may add a document -/

/-- Only mongo looks at `upsert`. -/
theorem render_upsert (h : dialect ≠ .mongo) (upsert : Bool) :
    ({ q with upsert } : Query).render dialect = q.render dialect := by
  cases dialect with
  | mongo => exact absurd rfl h
  | dynamo | firestore | couch => rfl

theorem renderParts_of_isUpdate (hop : q.operation.isUpdate = true) {parts : Entries}
    {ps : List Param} : (Dialect.mongo.renderParts q).Gives parts ps ↔
      ∃ filter update qs rs, (Mongo.renderQueryFilter q).Gives filter qs ∧
        (Mongo.renderUpdates q.updates).Gives update rs ∧
        parts = [("filter", filter), ("update", update)]
          ++ Entries.when q.upsert "upsert" (.bool true) ∧ ps = qs ++ rs := by
  cases hq : q.operation with
  | update | updateMany =>
    simp only [Dialect.renderParts, Mongo.renderParts, hq]
    exact gives_two
  | _ =>
    rw [hq] at hop
    cases hop

/-- In mongo an update that may add a document renders to one more entry. -/
theorem render_upsert_mongo (hop : q.operation.isUpdate = true)
    (hr : ({ q with upsert := true } : Query).render .mongo = .ok r) :
    ∃ r' es, ({ q with upsert := false } : Query).render .mongo = .ok r' ∧ es ≠ [] ∧
      r'.body = .obj es ∧ r.body = .obj (es ++ [("upsert", .bool true)]) := by
  obtain ⟨hvalid, hsupports, es, hes, hbody⟩ := render_eq_ok_iff.mp hr
  obtain ⟨parts, hparts, rfl⟩ := Dialect.renderEntries_gives.mp hes
  obtain ⟨filter, update, qs, rs, hfilter, hupdate, rfl, hps⟩ :=
    (renderParts_of_isUpdate (q := { q with upsert := true }) hop).mp hparts
  have hparts' : (Dialect.mongo.renderParts { q with upsert := false }).Gives
      [("filter", filter), ("update", update)] r.params :=
    (renderParts_of_isUpdate (q := { q with upsert := false }) hop).mpr
      ⟨filter, update, qs, rs, hfilter, hupdate, rfl, hps⟩
  refine ⟨⟨.obj (Dialect.mongo.header q ++ [("filter", filter), ("update", update)]), r.params⟩, _,
    render_eq_ok_iff.mpr ⟨hvalid, hsupports, _,
      Dialect.renderEntries_gives.mpr ⟨_, hparts', rfl⟩, rfl⟩, ?_, rfl, ?_⟩
  · exact List.cons_ne_nil _ _
  · rw [hbody, List.append_assoc]
    rfl

/-! ## Finds of one document -/

/-- A find of one document has the parts of a find, under a header of its own. -/
theorem render_findOne (hr : ({ q with operation := .findOne } : Query).render dialect = .ok r) :
    ∃ r' parts, ({ q with operation := .find } : Query).render dialect = .ok r' ∧
      r'.params = r.params ∧
      r'.body = .obj (dialect.header { q with operation := .find } ++ parts) ∧
      r.body = .obj (dialect.header { q with operation := .findOne } ++ parts) := by
  obtain ⟨hvalid, -, es, hes, hbody⟩ := render_eq_ok_iff.mp hr
  obtain ⟨parts, hparts, rfl⟩ := Dialect.renderEntries_gives.mp hes
  have hsame : dialect.renderParts { q with operation := .find } =
      dialect.renderParts { q with operation := .findOne } := by
    rw [dialect.renderParts_of_find (.inl rfl), dialect.renderParts_of_find (.inr rfl)]
    cases dialect <;> rfl
  refine ⟨⟨.obj (dialect.header { q with operation := .find } ++ parts), r.params⟩, parts,
    render_eq_ok_iff.mpr ⟨hvalid, ?_, _, ?_, rfl⟩, rfl, rfl, hbody⟩
  · cases dialect <;> rfl
  · exact Dialect.renderEntries_gives.mpr ⟨parts, hsame ▸ hparts, rfl⟩

/-- Where the operation is written down, a find of one document has the longer one. -/
theorem width_header_findOne (h : dialect = .mongo ∨ dialect = .firestore) :
    Json.width (dialect.header { q with operation := .findOne }) =
      Json.width (dialect.header { q with operation := .find }) + 4 := by
  have hfind : (Json.compact (.str Operation.find.token)).length = 6 := rfl
  have hfindOne : (Json.compact (.str Operation.findOne.token)).length = 10 := rfl
  rcases h with rfl | rfl <;>
    (simp only [Dialect.header, Json.width, hfind, hfindOne]
     omega)

end Query

/-- Mongo alone tells an update that may add a document from one that may not, and only mongo and
firestore tell a find of one document from a find of all. -/
theorem intents_told_apart (q : Query) (dialect : Dialect) :
    (q.operation.isUpdate = true → ∀ r,
      ({ q with upsert := true } : Query).render dialect = .ok r →
        ∃ r', ({ q with upsert := false } : Query).render dialect = .ok r' ∧
          (r'.output = r.output ↔ dialect ≠ .mongo)) ∧
    ∀ r, ({ q with operation := .findOne } : Query).render dialect = .ok r →
      ∃ r', ({ q with operation := .find } : Query).render dialect = .ok r' ∧
        (r'.output = r.output ↔ dialect = .dynamo ∨ dialect = .couch) := by
  constructor
  · intro hop r hr
    by_cases hmongo : dialect = .mongo
    · subst hmongo
      obtain ⟨r', es, hr', hes, hbody', hbody⟩ := Query.render_upsert_mongo hop hr
      refine ⟨r', hr', iff_of_false ?_ (fun hne => hne rfl)⟩
      refine Rendered.output_ne_of_width hbody' hbody hes (by simp) ?_
      rw [Json.width_append, Json.width]
      omega
    · refine ⟨r, ?_, iff_of_true rfl hmongo⟩
      rw [Query.render_upsert hmongo] at hr ⊢
      exact hr
  · intro r hr
    obtain ⟨r', parts, hr', hparams, hbody', hbody⟩ := Query.render_findOne hr
    refine ⟨r', hr', ?_⟩
    cases dialect with
    | dynamo | couch =>
      refine iff_of_true ?_ (by simp)
      rw [Rendered.output, Rendered.output, Rendered.text, Rendered.text, Rendered.paramNames,
        Rendered.paramNames, hparams, hbody', hbody]
      rfl
    | mongo | firestore =>
      refine iff_of_false ?_ (by simp)
      refine Rendered.output_ne_of_width hbody' hbody (List.cons_ne_nil _ _)
        (List.cons_ne_nil _ _) ?_
      rw [Json.width_append, Json.width_append, Query.width_header_findOne (by simp)]
      omega

/-- In mongo it shows in the text whether a missing user is added with the label. -/
theorem intents_told_apart_labelled :
    ∃ q r r', ((Builder.start .update Users.collection).run
        [.change .set Users.name Users.label]).build = .ok q ∧
      ({ q with upsert := true } : Query).render .mongo = .ok r ∧
      ({ q with upsert := false } : Query).render .mongo = .ok r' ∧ r'.output ≠ r.output := by
  obtain ⟨q, hq, hop⟩ : ∃ q, ((Builder.start .update Users.collection).run
      [.change .set Users.name Users.label]).build = .ok q ∧ q.operation.isUpdate = true :=
    ⟨_, rfl, rfl⟩
  obtain ⟨r, hr⟩ : ∃ r, ({ q with upsert := true } : Query).render .mongo = .ok r := by
    cases hq
    exact ⟨_, rfl⟩
  obtain ⟨hupsert, -⟩ := intents_told_apart q .mongo
  obtain ⟨r', hr', hsame⟩ := hupsert hop r hr
  exact ⟨q, r, r', hq, hr, hr', fun heq => hsame.mp heq rfl⟩

/-- In couch both intents are lost: an update with `upsert` renders as the one without it, and a
find of one document as a find of all. -/
theorem intents_alike :
    (∃ q r, ((Builder.start .update Users.collection).run
        [.change .set Users.name Users.label, .upsert]).build = .ok q ∧ q.upsert = true ∧
      q.render .couch = .ok r ∧ ({ q with upsert := false } : Query).render .couch = .ok r) ∧
    ∃ r, (Query.start .findOne Users.collection).render .couch = .ok r ∧
      (Query.start .find Users.collection).render .couch = .ok r :=
  ⟨⟨_, _, rfl, rfl, rfl, rfl⟩, _, rfl, rfl⟩

end DocumentQuery
