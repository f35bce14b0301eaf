import Xeibe.Core.Splitter.Correct

/-!
# Where chunks are cut

Every chunk of a run over a document, whatever the run ends with, holds features
of one context and one box: the context of the declarations of their open
ancestors, and the box of the innermost of these that has one.  It is filled up
to the target size unless something after it cuts it.
-/

namespace Xeibe

/-- The elements of a content that are a `boundedBy`, self-closing ones
included. -/
def Content.boundedBys (quickXml : Bytes → Option Bytes) (scope : List (Option Bytes × Bytes)) :
    Content → List Bytes
  | .nil => []
  | .aside _ rest => rest.boundedBys quickXml scope
  | .empty tag rest =>
    let name := resolveIn (scope ++ tag.declarations quickXml) tag.name.bytes true
    (if name.any isBoundedBy then [tag.renderEmpty] else []) ++ rest.boundedBys quickXml scope
  | .element tag children space rest =>
    let name := resolveIn (scope ++ tag.declarations quickXml) tag.name.bytes true
    let bytes := tag.renderStart ++ (children.render ++ tag.renderEnd space)
    (if name.any isBoundedBy then [bytes] else []) ++ rest.boundedBys quickXml scope

namespace Splitter

/-- The chunks that a run over a document makes are cut as its marks say: each
holds the features of a stretch of them, at least one. -/
theorem chunks_cut (doc : Document) {reader : List Read} (h : Delivers reader doc.render)
    (quickXml : Bytes → Option Bytes) (source : Nat) (options : SplitterOptions) :
    ∀ chunk ∈ ((new reader source options).chunks quickXml).1,
      ∃ seg : Segment, seg.marks = doc.marks quickXml options source ∧
        ChunkOf options.targetChunkBytes seg chunk ∧ 0 < chunk.features ∧ chunk.bytes ≠ [] := by
  intro chunk hchunk
  obtain ⟨seg, hmarks, hof⟩ := (chunks_emit doc h source rfl).1 chunk hchunk
  refine ⟨seg, hmarks, hof, ?_, ?_⟩
  · rw [hof.describes.count]
    exact List.length_pos_of_ne_nil seg.features_ne_nil
  · rw [hof.describes.bytes]
    exact seg.bytes_ne_nil

/-- A collection of one feature. -/
theorem chunks_cut_one :
    ∃ chunk seg,
      chunk ∈ ((new [.bytes (gmlCollection memberOfF).render] 0 .default).chunks some).1 ∧
      seg.marks = (gmlCollection memberOfF).marks some .default 0 ∧
      ChunkOf SplitterOptions.default.targetChunkBytes seg chunk ∧ chunk.features = 1 := by
  have hread : Delivers [.bytes (gmlCollection memberOfF).render]
      (gmlCollection memberOfF).render := by
    have : Delivers _ ((gmlCollection memberOfF).render ++ []) := .bytes (by decide) .done
    rwa [List.append_nil] at this
  have hfeatures : ((new [.bytes (gmlCollection memberOfF).render] 0 .default).chunks some).1.map
      FeatureChunk.features = [1] := by
    decide +kernel
  obtain ⟨chunk, hchunks, hone⟩ := List.map_eq_singleton_iff.1 hfeatures
  have hmem : chunk ∈
      ((new [.bytes (gmlCollection memberOfF).render] 0 .default).chunks some).1 := by
    rw [hchunks]
    exact List.mem_singleton_self chunk
  obtain ⟨seg, hmarks, hof, -, -⟩ := chunks_cut (gmlCollection memberOfF) hread some 0 .default
    chunk hmem
  exact ⟨chunk, seg, hmem, hmarks, hof, hone⟩

/-- `<F/>` twice, between them an element with a declaration of its own and a
`boundedBy`. -/
def crossedContext : Content :=
  .element memberTag (.empty tagF .nil) noSpace
    (.element
      (declaringTag (utf8 "w") (utf8 "xmlns:q") (utf8 "u") (by decide) (by decide) (by decide))
      (.element boundedByTag .nil noSpace .nil) noSpace memberOfF)

/-- A `boundedBy` with content, one without, and `<F/>`. -/
def emptyBoundedBy : Content :=
  .element boundedByTag .nil noSpace (.empty boundedByTag memberOfF)

/-- What does not hold of chunks.  A `boundedBy` without content does not
replace the box before it; two chunks of one context and no box may follow each
other, the first below the target size; and with a target of nothing, nothing is
below it. -/
theorem chunks_cut_exceptions :
    ((emptyBoundedBy.boundedBys some [(none, ns.GML)]).getLast? = some (utf8 "<boundedBy/>") ∧
      ((new [.bytes (gmlCollection emptyBoundedBy).render] 0 .default).chunks some).1.map
        (fun chunk => chunk.collectionBoundedBy.map fun element => element.val.bytes) =
          [some (utf8 "<boundedBy></boundedBy>")]) ∧
    (((new [.bytes (gmlCollection crossedContext).render] 0 .default).chunks some).1.map
        (fun chunk => (chunk.bytes, chunk.namespaces.val, chunk.collectionBoundedBy)) =
          [(utf8 "<F/>", ⟨[(none, ns.GML)]⟩, none), (utf8 "<F/>", ⟨[(none, ns.GML)]⟩, none)] ∧
      (utf8 "<F/>").length < SplitterOptions.default.targetChunkBytes) ∧
    (((new [.bytes (gmlCollection memberOfF).render] 0
        { SplitterOptions.default with targetChunkBytes := 0 }).chunks some).1.map
        FeatureChunk.bytes = [utf8 "<F/>"] ∧
      ¬ ([] : Bytes).length < 0) := by
  decide +kernel

end Splitter

end Xeibe
