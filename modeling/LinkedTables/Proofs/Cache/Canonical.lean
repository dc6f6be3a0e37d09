import LinkedTables.Proofs.Cache.Records

/-!
# The canonical text tells requests apart

Sorting the fields of a request's JSON is an arrangement that readers do not notice, so the text that
is hashed can be read: it gives back the request with its strings, its numbers and the lengths of its
lists (`Request.ofCanonical?_canonical`). A text from which the request can be read is the text of no other
request, and what is left for two requests with one digest is a collision of the hash
(`Request.canonical_injective`).
-/

namespace LinkedTables

/-- Two texts that differ are hashed to the same digest. -/
def Blake3.Collides (x y : ByteArray) : Prop := x ≠ y ∧ hash x = hash y

namespace Request

/-- The request that a text is the canonical one of. -/
def ofCanonical? (text : String) : Option Request :=
  (Json.read? text.toList).bind Stored.request?

theorem ofCanonical?_canonical (r : Request) : ofCanonical? r.canonical = some r := by
  have hrestores := Json.arrangement_sorted.restores_request
  have hread : Json.read? r.canonical.toList = some r.toJson.sorted := by
    rw [canonical, Json.canonical, Json.render, String.toList_ofList]
    exact (hrestores.plain r).read?_write
  rw [ofCanonical?, hread, Option.bind_some]
  exact hrestores.eq r

theorem eq_of_canonical_eq {r r' : Request} (h : r.canonical = r'.canonical) : r = r' := by
  have hread := ofCanonical?_canonical r'
  rw [← h, ofCanonical?_canonical r] at hread
  exact Option.some.inj hread

theorem eq_iff_parts {r r' : Request} :
    r = r' ↔ r.version = r'.version ∧ r.mode = r'.mode ∧ r.expressions = r'.expressions ∧
      r.references = r'.references ∧ r.layout = r'.layout ∧ r.constants = r'.constants := by
  cases r
  cases r'
  simp only [mk.injEq]

/-- The bytes that are hashed are those of one request only. Two requests have one digest if they agree
in every part, and otherwise only if the hash collides on their bytes. -/
theorem canonical_injective :
    (Function.Injective fun r : Request => r.canonical.toUTF8) ∧
      ∀ r r' : Request, r.digest = r'.digest ↔
        (r.version = r'.version ∧ r.mode = r'.mode ∧ r.expressions = r'.expressions ∧
          r.references = r'.references ∧ r.layout = r'.layout ∧ r.constants = r'.constants) ∨
        Blake3.Collides r.canonical.toUTF8 r'.canonical.toUTF8 := by
  have hinjective : Function.Injective fun r : Request => r.canonical.toUTF8 :=
    fun r r' h => eq_of_canonical_eq (String.toByteArray_inj.1 h)
  refine ⟨hinjective, fun r r' => ?_⟩
  rw [← eq_iff_parts]
  constructor
  · intro hdigest
    by_cases hbytes : r.canonical.toUTF8 = r'.canonical.toUTF8
    · exact .inl (hinjective hbytes)
    · exact .inr ⟨hbytes, hdigest⟩
  · rintro (rfl | hcollides)
    · rfl
    · exact hcollides.2

end Request

end LinkedTables
