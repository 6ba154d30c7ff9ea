/-
AdaIdna/PackLayout.lean

Where `write_blob` puts the sections.

The sections follow one another in the order of `SECTION_ORDER`, each behind
the padding that aligns it (`Laid`).  Its bytes are found again at its offset,
and give the values back (`unpackValues_packed`).
-/
import AdaIdna.PackTables
import AdaIdna.Lib.Buffer

namespace AdaIdna

namespace PackTables

variable {vals : BlobSection → List ℕ} {items : List (BlobSection × Kind)} {kind : Kind}
  {blob : Bytes} {layout : List Placed} {l : List ℕ} {a fuel k m n v : ℕ} {s : BlobSection}

/-! ### Values -/

/-- The bytes of a value, lowest first. -/
def bytesOf (kind : Kind) (v : ℕ) : Bytes := (Lanes.unpack 8 kind.width v).map toChar

/-- The bytes of a section. -/
def packed (kind : Kind) (l : List ℕ) : Bytes := l.flatMap (bytesOf kind)

@[simp] theorem length_bytesOf (kind : Kind) (v : ℕ) : (bytesOf kind v).length = kind.width := by
  rw [bytesOf, List.length_map, Lanes.length_unpack]

theorem align_pos (kind : Kind) : 0 < kind.align := by
  cases kind <;> decide

theorem length_packed (kind : Kind) (l : List ℕ) :
    (packed kind l).length = l.length * kind.width := by
  induction l with
  | nil => rw [List.length_nil, Nat.zero_mul]; rfl
  | cons v l ih =>
    rw [packed, List.flatMap_cons, List.length_append, ← packed, ih, length_bytesOf,
      List.length_cons, Nat.succ_mul, Nat.add_comm]

/-- A value that fits is found again in its bytes. -/
theorem pack_bytesOf (h : v < 2 ^ (8 * kind.width)) :
    Lanes.pack 8 ((bytesOf kind v).map UInt8.toNat) = v := by
  have hbytes : (bytesOf kind v).map UInt8.toNat = Lanes.unpack 8 kind.width v := by
    rw [bytesOf, List.map_map]
    refine List.map_congr_left (fun x hx => ?_) |>.trans (List.map_id _)
    exact toNat_toChar (Lanes.lt_of_mem_unpack hx)
  rw [hbytes, Lanes.pack_unpack_of_lt h]

theorem packValues_eq (h : ∀ v ∈ l, v < 2 ^ (8 * kind.width)) :
    packValues kind l = some (packed kind l) := by
  induction l with
  | nil => rfl
  | cons v l ih =>
    obtain ⟨hv, hl⟩ := List.forall_mem_cons.mp h
    obtain ⟨bs, hbs, heq⟩ := Option.map_eq_some_iff.mp (ih hl)
    rw [packValues, List.mapM_cons, packValue, if_pos hv, hbs]
    show some ((bytesOf kind v) ++ bs.flatten) = _
    rw [heq]
    rfl

/-- **The values come back** from the bytes of a section. -/
theorem unpackValues_packed (h : ∀ v ∈ l, v < 2 ^ (8 * kind.width)) :
    unpackValues kind l.length (packed kind l) = l := by
  apply List.ext_getElem
  · rw [unpackValues, List.length_map, List.length_range]
  · intro k hk hk'
    have hbytes : ((packed kind l).drop (kind.width * k)).take kind.width = bytesOf kind l[k] :=
      Buffer.region_flatMap (length_bytesOf kind) (List.getElem?_eq_getElem hk')
    simp only [unpackValues, List.getElem_map, List.getElem_range, hbytes]
    exact pack_bytesOf (h _ (List.getElem_mem hk'))

/-! ### Padding -/

theorem alignLoop_eq (hle : blob.length ≤ a * m) (hfuel : a * m ≤ blob.length + fuel) :
    ∃ n, alignLoop a fuel blob = blob ++ List.replicate n 0 ∧ a ∣ blob.length + n := by
  induction fuel generalizing blob with
  | zero => exact ⟨0, (List.append_nil blob).symm, m, by omega⟩
  | succ fuel ih =>
    rw [alignLoop]
    split
    · rename_i hmod
      have hne : blob.length ≠ a * m := by
        intro heq
        exact hmod (by rw [heq, Nat.mul_mod_right])
      obtain ⟨n, heq, hdvd⟩ := ih (show (blob ++ [0]).length ≤ a * m by simp; omega)
        (by simp; omega)
      refine ⟨n + 1, ?_, ?_⟩
      · rw [heq, List.append_assoc, List.replicate_succ, List.singleton_append]
      · rw [List.length_append, List.length_singleton] at hdvd
        rwa [Nat.add_comm n, ← Nat.add_assoc]
    · rename_i hmod
      exact ⟨0, (List.append_nil blob).symm, Nat.dvd_of_mod_eq_zero (not_not.mp hmod)⟩

/-- Padding aligns the end. -/
theorem align_eq (ha : 0 < a) (blob : Bytes) :
    ∃ n, align a blob = blob ++ List.replicate n 0 ∧ a ∣ (align a blob).length := by
  have hdiv := Nat.div_add_mod blob.length a
  have hlt := Nat.mod_lt blob.length ha
  have hle : blob.length ≤ a * (blob.length / a + 1) := by
    rw [Nat.mul_succ]
    omega
  have hfuel : a * (blob.length / a + 1) ≤ blob.length + a := by
    rw [Nat.mul_succ]
    omega
  obtain ⟨n, heq, hdvd⟩ := alignLoop_eq hle hfuel
  refine ⟨n, heq, ?_⟩
  rw [align, heq, List.length_append, List.length_replicate]
  exact hdvd

/-! ### Sections -/

/-- The values fit into the kinds of their sections. -/
def Fits (vals : BlobSection → List ℕ) : Prop :=
  ∀ item ∈ sectionOrder, ∀ v ∈ vals item.1, v < 2 ^ (8 * item.2.width)

/-- The blob and the layout after some sections. -/
structure Laid (vals : BlobSection → List ℕ) (items : List (BlobSection × Kind)) (blob : Bytes)
    (layout : List Placed) : Prop where
  items : layout.map (fun p => (p.name, p.kind)) = items
  count : ∀ p ∈ layout, p.count = (vals p.name).length
  nbytes : ∀ p ∈ layout, p.nbytes = p.count * p.kind.width
  aligned : ∀ p ∈ layout, p.kind.align ∣ p.off
  content : ∀ p ∈ layout,
    ∃ pre post, blob = pre ++ (packed p.kind (vals p.name) ++ post) ∧ pre.length = p.off
  ordered : layout.Pairwise fun p q => p.off + p.count * p.kind.width ≤ q.off

theorem laid_nil : Laid vals [] [] [] := ⟨rfl, nofun, nofun, nofun, nofun, List.Pairwise.nil⟩

/-- A section ends where the blob does, at the latest. -/
theorem Laid.le_length (h : Laid vals items blob layout) {p : Placed} (hp : p ∈ layout) :
    p.off + p.count * p.kind.width ≤ blob.length := by
  obtain ⟨pre, post, rfl, hlen⟩ := h.content p hp
  rw [h.count p hp, ← hlen, ← length_packed, List.length_append, List.length_append]
  omega

/-- **One more section.** -/
theorem Laid.place (h : Laid vals items blob layout)
    (hfits : ∀ v ∈ vals s, v < 2 ^ (8 * kind.width)) :
    ∃ blob' layout', placeSection (fun s => some (vals s)) (blob, layout) (s, kind)
        = some (blob', layout') ∧ Laid vals (items ++ [(s, kind)]) blob' layout' := by
  obtain ⟨n, hpad, hdvd⟩ := align_eq (align_pos kind) blob
  have hplace : placeSection (fun s => some (vals s)) (blob, layout) (s, kind)
      = some (align kind.align blob ++ packed kind (vals s), layout ++
        [⟨s, (align kind.align blob).length, (vals s).length * kind.width, kind,
          (vals s).length⟩]) := by
    rw [placeSection, Option.bind_eq_bind, Option.bind_some, packValues_eq hfits]
    rfl
  refine ⟨_, _, hplace, ?_, ?_, ?_, ?_, ?_, ?_⟩
  · rw [List.map_append, h.items]
    rfl
  · intro p hp
    rcases List.mem_append.mp hp with hp | hp
    · exact h.count p hp
    · rw [List.mem_singleton.mp hp]
  · intro p hp
    rcases List.mem_append.mp hp with hp | hp
    · exact h.nbytes p hp
    · rw [List.mem_singleton.mp hp]
  · intro p hp
    rcases List.mem_append.mp hp with hp | hp
    · exact h.aligned p hp
    · rw [List.mem_singleton.mp hp]
      exact hdvd
  · intro p hp
    rcases List.mem_append.mp hp with hp | hp
    · obtain ⟨pre, post, hblob, hlen⟩ := h.content p hp
      refine ⟨pre, post ++ (List.replicate n 0 ++ packed kind (vals s)), ?_, hlen⟩
      rw [hpad, hblob]
      simp only [List.append_assoc]
    · rw [List.mem_singleton.mp hp]
      exact ⟨align kind.align blob, [], by rw [List.append_nil], rfl⟩
  · rw [List.pairwise_append]
    refine ⟨h.ordered, List.pairwise_singleton _ _, fun p hp q hq => ?_⟩
    rw [List.mem_singleton.mp hq, hpad, List.length_append]
    exact (h.le_length hp).trans (Nat.le_add_right _ _)

/-- **All sections** are laid out. -/
theorem exists_foldlM (h : ∀ item ∈ items, ∀ v ∈ vals item.1, v < 2 ^ (8 * item.2.width)) :
    ∃ blob layout, items.foldlM (placeSection fun s => some (vals s)) ([], [])
      = some (blob, layout) ∧ Laid vals items blob layout := by
  induction items using List.reverseRecOn with
  | nil => exact ⟨[], [], rfl, laid_nil⟩
  | append_singleton items item ih =>
    obtain ⟨blob, layout, hfold, hlaid⟩ := ih fun i hi => h i (List.mem_append_left _ hi)
    obtain ⟨blob', layout', hplace, hlaid'⟩ := hlaid.place (h item (by simp))
    refine ⟨blob', layout', ?_, hlaid'⟩
    rw [List.foldlM_append, hfold]
    show (placeSection (fun s => some (vals s)) (blob, layout) item).bind some = _
    rw [hplace]
    rfl

theorem exists_computeLayout (h : Fits vals) :
    ∃ blob layout, computeLayout (fun s => some (vals s)) = some (blob, layout) ∧
      Laid vals sectionOrder blob layout := exists_foldlM h

end PackTables

end AdaIdna
