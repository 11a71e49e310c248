import ManPage.Proofs.Document.Markup

/-! The anchors of a page. Each heading has an identifier of its own, but its attribute holds the
identifier with its quotes written as entities, and two identifiers can have the same attribute: one
with a quote, and one in which the entity stands already. -/

namespace ManPage.Document

open Markup

/-- The HTML of a page, without front matter. -/
def pageHtml (options : Options) (name text : Text) : Text :=
  joinLines ((run options {} (.ofText name text)).htmlChunks options)

/-- The identifiers given out on a page, in order. -/
def pageIds (options : Options) (name text : Text) : List Text :=
  (run options {} (.ofText name text)).state.anchors.given.reverse

/-- The headings of a page have the identifiers that are given out, which are distinct. -/
theorem headingIds_pageHtml (options : Options) (name text : Text) :
    headingIds (pageHtml options name text) = (pageIds options name text).map attributeValue ∧
      (pageIds options name text).Nodup := by
  have success := run_ofText options name text
  have session := run_session options {} _ success
  obtain ⟨new, leads⟩ := session.leads
  have page := leads.nests.join (nests_tail success (session.hasPageTrailer (.inl rfl)))
  rw [← joinLines_append] at page
  have given : (run options {} (.ofText name text)).state.anchors.given = new := by
    rw [leads.given]
    exact List.append_nil new
  constructor
  · rw [pageIds, given]
    exact page.headings.trans (List.append_nil _)
  · exact List.nodup_reverse.mpr (leads.distinct List.nodup_nil)

/-- The headings of a page have the identifiers that are given out, in order, as attributes. The
identifiers are distinct; their attributes are so if and only if no two identifiers of the page come
to the same attribute. -/
theorem nodup_headingIds_iff (options : Options) (name text : Text) :
    let ids := pageIds options name text
    headingIds (pageHtml options name text) = ids.map attributeValue ∧ ids.Nodup ∧
      ((headingIds (pageHtml options name text)).Nodup ↔
        ∀ first ∈ ids, ∀ second ∈ ids,
          attributeValue first = attributeValue second → first = second) := by
  intro ids
  obtain ⟨headings, distinct⟩ := headingIds_pageHtml options name text
  refine ⟨headings, distinct, ?_⟩
  rw [headings]
  exact List.nodup_map_iff_inj_on distinct

/-- A heading with a quote and one with the entity of a quote have the same anchor. -/
theorem not_nodup_headingIds_quote :
    ¬∀ options name text, (headingIds (pageHtml options name text)).Nodup := by
  intro nodup
  have twice := nodup {} [] ".SH a\"b\n.SH a\\(dqb\n".toList
  revert twice
  decide +kernel

end ManPage.Document
