/-
AdaIdna/BlobEndian.lean

The conversion of the buffer to the byte order of the host.

A section whose elements are swapped holds the bytes of its values in the
order of the host (`bswapInplace_packed`), and the sections that are disjoint
from it keep theirs.  `converted` names every section with elements of more
than one byte, and each of them once; so all sections are in the order of the
host in the end (`region_convert`), and a load gives back the value that was
packed (`nativeLoad_of_region`).
-/
import AdaIdna.TableBlob
import AdaIdna.PackLayout

namespace AdaIdna

namespace TableBlob

open Lanes PackTables Buffer

variable {vals : BlobSection → List ℕ} {o : ByteOrder} {kind : Kind} {buffer pre post : Bytes}
  {layout : List Placed} {b : Blob} {l : List ℕ} {done : List BlobSection} {p q : Placed}
  {a k v w : ℕ} {s : BlobSection}

/-! ### One element -/

/-- The bytes of a value in the order of the host. -/
def hostBytes (o : ByteOrder) (kind : Kind) (v : ℕ) : Bytes := o.arrange (bytesOf kind v)

/-- The bytes of a section in the order of the host. -/
def hostPacked (o : ByteOrder) (kind : Kind) (l : List ℕ) : Bytes := l.flatMap (hostBytes o kind)

@[simp] theorem length_hostBytes (o : ByteOrder) (kind : Kind) (v : ℕ) :
    (hostBytes o kind v).length = kind.width := by
  simp [hostBytes]

theorem length_hostPacked (o : ByteOrder) (kind : Kind) (l : List ℕ) :
    (hostPacked o kind l).length = (packed kind l).length := by
  simp [hostPacked, packed, List.length_flatMap]

theorem toNat_lt_of_mem {s : Bytes} : ∀ x ∈ s.map UInt8.toNat, x < 2 ^ 8 := by
  intro x hx
  obtain ⟨c, -, rfl⟩ := List.mem_map.mp hx
  exact c.toNat_lt

/-- A swap turns the bytes around. -/
theorem unpack_bswap {s : Bytes} (h : s.length = w) :
    (unpack 8 w (bswap w (pack 8 (s.map UInt8.toNat)))).map toChar = s.reverse := by
  have hunpack : unpack 8 w (pack 8 (s.map UInt8.toNat)) = s.map UInt8.toNat := by
    have h' := unpack_pack (toNat_lt_of_mem (s := s))
    rwa [List.length_map, h] at h'
  have hlt : ∀ x ∈ (s.map UInt8.toNat).reverse, x < 2 ^ 8 := by
    intro x hx
    exact toNat_lt_of_mem x (List.mem_reverse.mp hx)
  have hswap := unpack_pack hlt
  rw [List.length_reverse, List.length_map, h] at hswap
  rw [bswap, hunpack, hswap, ← List.map_reverse, map_toChar_map_toNat]

/-- **One round**: the bytes of one element are turned around. -/
theorem bswapStep_eq {s : Bytes} {i off : ℕ} (ha : pre.length = off + w * i) (hs : s.length = w) :
    bswapStep .big w off (pre ++ (s ++ post)) i = pre ++ (s.reverse ++ post) := by
  have hload : nativeLoad .big w (pre ++ (s ++ post)) (off + w * i)
      = pack 8 (s.reverse.map UInt8.toNat) := by
    show pack 8 ((region (pre ++ (s ++ post)) (off + w * i) w).map UInt8.toNat).reverse = _
    rw [region_append ha hs, List.map_reverse]
  have hrest : (pre ++ (s ++ post)).drop (off + w * i + w) = post := by
    rw [← ha, ← List.drop_drop, List.drop_left, List.drop_left' hs]
  have hbytes := unpack_bswap (s := s.reverse) (w := w) (by rw [List.length_reverse, hs])
  rw [bswapStep, nativeStore, hload, hrest, hbytes, List.take_left' ha]
  simp [ByteOrder.arrange]

/-! ### One section -/

/-- **The section** is in the order of the host after its call. -/
theorem bswapInplace_packed (ha : pre.length = a) :
    bswapInplace o kind.width (pre ++ (packed kind l ++ post)) a l.length
      = pre ++ (hostPacked o kind l ++ post) := by
  cases o with
  | little => rfl
  | big =>
    show (List.range l.length).foldl (bswapStep .big kind.width a) _ = _
    induction l using List.reverseRecOn generalizing post with
    | nil => rfl
    | append_singleton l v ih =>
      have hsplit : packed kind (l ++ [v]) ++ post = packed kind l ++ (bytesOf kind v ++ post) := by
        simp [packed]
      have hhost : hostPacked .big kind (l ++ [v]) ++ post
          = hostPacked .big kind l ++ ((bytesOf kind v).reverse ++ post) := by
        simp [hostPacked, hostBytes, ByteOrder.arrange]
      have hlen : (pre ++ hostPacked .big kind l).length = a + kind.width * l.length := by
        rw [List.length_append, ha, length_hostPacked, length_packed, Nat.mul_comm]
      have hstep : bswapStep .big kind.width a (pre ++ hostPacked .big kind l ++
          (bytesOf kind v ++ post)) l.length = _ := bswapStep_eq hlen (length_bytesOf kind v)
      rw [List.length_append, List.length_singleton, List.range_succ, List.foldl_append, hsplit, ih,
        hhost]
      rwa [List.append_assoc, List.append_assoc] at hstep

/-! ### All sections -/

/-- Disjoint sections. -/
theorem disjoint_of_laid {items : List (BlobSection × Kind)} {blob : Bytes}
    (h : Laid vals items blob layout) (hp : p ∈ layout) (hq : q ∈ layout) (hne : p ≠ q) :
    p.off + p.count * p.kind.width ≤ q.off ∨ q.off + q.count * q.kind.width ≤ p.off := by
  have hsymm : layout.Pairwise fun p q => p.off + p.count * p.kind.width ≤ q.off ∨
      q.off + q.count * q.kind.width ≤ p.off := h.ordered.imp Or.inl
  have : Std.Symm fun p q : Placed => p.off + p.count * p.kind.width ≤ q.off ∨
      q.off + q.count * q.kind.width ≤ p.off := ⟨fun _ _ h => h.symm⟩
  exact hsymm.forall hp hq hne

/-- Some sections are in the order of the host, the others as they were
packed. -/
structure Converted (vals : BlobSection → List ℕ) (o : ByteOrder) (layout : List Placed)
    (done : List BlobSection) (buffer : Bytes) : Prop where
  le_length : ∀ p ∈ layout, p.off + p.count * p.kind.width ≤ buffer.length
  content : ∀ p ∈ layout, region buffer p.off (p.count * p.kind.width)
    = if p.name ∈ done then hostPacked o p.kind (vals p.name) else packed p.kind (vals p.name)

section Conversion

variable {items : List (BlobSection × Kind)} {blob : Bytes}
  (hlaid : Laid vals items blob layout) (hnodup : (layout.map Placed.name).Nodup)
include hlaid

theorem converted_nil (o : ByteOrder) : Converted vals o layout [] blob := by
  refine ⟨fun p hp => hlaid.le_length hp, fun p hp => ?_⟩
  obtain ⟨pre, post, rfl, hlen⟩ := hlaid.content p hp
  rw [if_neg List.not_mem_nil]
  apply region_append hlen
  rw [length_packed, hlaid.count p hp]

include hnodup

/-- **One call** converts its section and leaves the others as they are. -/
theorem Converted.step (h : Converted vals o layout done buffer) (hp : p ∈ layout)
    (hnew : p.name ∉ done) :
    Converted vals o layout (p.name :: done)
      (bswapInplace o p.kind.width buffer p.off p.count) := by
  obtain ⟨pre, post, hpre, hbuffer⟩ : ∃ pre post : Bytes, pre.length = p.off ∧
      buffer = pre ++ (packed p.kind (vals p.name) ++ post) := by
    refine ⟨buffer.take p.off, buffer.drop (p.off + p.count * p.kind.width), ?_,
      (append_region buffer p.off (p.count * p.kind.width)).symm.trans ?_⟩
    · have hle := h.le_length p hp
      rw [List.length_take]
      omega
    · rw [h.content p hp, if_neg hnew]
  have hlen : (packed p.kind (vals p.name)).length = p.count * p.kind.width := by
    rw [length_packed, hlaid.count p hp]
  have hswap : bswapInplace o p.kind.width buffer p.off p.count
      = pre ++ (hostPacked o p.kind (vals p.name) ++ post) := by
    rw [hbuffer, hlaid.count p hp]
    exact bswapInplace_packed hpre
  rw [hswap]
  constructor
  · intro q hq
    have hle := h.le_length q hq
    simpa [hbuffer, length_hostPacked] using hle
  · intro q hq
    by_cases hqp : q = p
    · subst hqp
      rw [if_pos List.mem_cons_self]
      apply region_append hpre
      rw [length_hostPacked, hlen]
    · have hname : q.name ≠ p.name := by
        intro heq
        exact hqp (List.inj_on_of_nodup_map hnodup hq hp heq)
      have hframe : region (pre ++ (hostPacked o p.kind (vals p.name) ++ post)) q.off
          (q.count * q.kind.width) = region buffer q.off (q.count * q.kind.width) := by
        rw [hbuffer]
        apply region_replace (length_hostPacked o _ _).symm
        rw [hpre, hlen]
        exact disjoint_of_laid hlaid hq hp hqp
      rw [hframe, h.content q hq]
      simp [hname]

/-- **The calls** convert their sections, if none is called for twice. -/
theorem Converted.foldl {cs : List (BlobSection × ℕ)} (hcs : (cs.map Prod.fst).Nodup)
    (hplace : ∀ c ∈ cs, ∃ p ∈ layout, p.name = c.1 ∧ p.kind.width = c.2 ∧ off b c.1 = p.off ∧
      count b c.1 = p.count)
    (hnew : ∀ c ∈ cs, c.1 ∉ done) (h : Converted vals o layout done buffer) :
    Converted vals o layout ((cs.map Prod.fst).reverse ++ done)
      (cs.foldl (fun buffer c => bswapInplace o c.2 buffer (off b c.1) (count b c.1)) buffer) := by
  induction cs generalizing done buffer with
  | nil => exact h
  | cons c cs ih =>
    obtain ⟨hc, hcs⟩ := List.nodup_cons.mp hcs
    obtain ⟨p, hp, hname, hwidth, hoff, hcount⟩ := hplace c List.mem_cons_self
    have hstep := h.step hlaid hnodup hp (by rw [hname]; exact hnew c List.mem_cons_self)
    rw [hname, hwidth, ← hoff, ← hcount] at hstep
    have hrest := ih hcs (fun d hd => hplace d (List.mem_cons_of_mem c hd)) ?_ hstep
    · rw [List.map_cons, List.reverse_cons, List.append_assoc]
      exact hrest
    · intro d hd hmem
      rcases List.mem_cons.mp hmem with heq | hmem
      · exact hc (heq ▸ List.mem_map_of_mem hd)
      · exact hnew d (List.mem_cons_of_mem c hd) hmem

end Conversion

/-! ### The list of calls -/

/-- Every section has elements of one byte, or is called for with its width. -/
theorem mem_converted : ∀ item ∈ sectionOrder, (item.1, item.2.width) ∈ converted ∨
    item.1 ∉ converted.map Prod.fst ∧ item.2 = .u8 := by
  decide

/-- Only sections are called for, with their widths. -/
theorem of_mem_converted : ∀ c ∈ converted, ∃ item ∈ sectionOrder, item.1 = c.1 ∧
    item.2.width = c.2 := by
  decide

theorem nodup_converted : (converted.map Prod.fst).Nodup := by
  decide

/-- The pointers have the widths of their sections. -/
theorem pointerWidth_eq : ∀ item ∈ sectionOrder, pointerWidth item.1 = item.2.width := by
  decide

/-- One byte is in every order. -/
theorem hostPacked_u8 (o : ByteOrder) (l : List ℕ) : hostPacked o .u8 l = packed .u8 l := by
  cases o with
  | little => rfl
  | big =>
    simp only [hostPacked, packed]
    congr 1

/-! ### The buffer -/

/-- The constants of a section. -/
theorem find?_layout (hnodup : (layout.map Placed.name).Nodup) (hp : p ∈ layout) :
    layout.find? (fun q => q.name = p.name) = some p := by
  rcases hfind : layout.find? (fun q => q.name = p.name) with - | q
  · have hnone := List.find?_eq_none.mp hfind p hp
    simp at hnone
  · have hname : q.name = p.name := by simpa using List.find?_some hfind
    exact hfind.trans (congrArg some
      (List.inj_on_of_nodup_map hnodup (List.mem_of_find?_eq_some hfind) hp hname))

theorem off_eq (hnodup : (b.layout.map Placed.name).Nodup) (hp : p ∈ b.layout) :
    off b p.name = p.off := by
  rw [off, find?_layout hnodup hp]
  rfl

theorem count_eq (hnodup : (b.layout.map Placed.name).Nodup) (hp : p ∈ b.layout) :
    count b p.name = p.count := by
  rw [count, find?_layout hnodup hp]
  rfl

/-- Every section is laid out. -/
theorem exists_placed {blob : Bytes} (h : Laid vals sectionOrder blob layout)
    {item : BlobSection × Kind} (hitem : item ∈ sectionOrder) :
    ∃ p ∈ layout, p.name = item.1 ∧ p.kind = item.2 := by
  rw [← h.items] at hitem
  obtain ⟨p, hp, rfl⟩ := List.mem_map.mp hitem
  exact ⟨p, hp, rfl, rfl⟩

theorem nodup_of_laid {blob : Bytes} (h : Laid vals sectionOrder blob layout) :
    (layout.map Placed.name).Nodup := by
  have hnames : layout.map Placed.name = sectionOrder.map Prod.fst := by
    rw [← h.items, List.map_map]
    rfl
  rw [hnames]
  decide

theorem mem_sectionOrder_of_laid {blob : Bytes} (h : Laid vals sectionOrder blob layout)
    (hp : p ∈ layout) : (p.name, p.kind) ∈ sectionOrder := by
  rw [← h.items]
  exact List.mem_map_of_mem (f := fun p : Placed => (p.name, p.kind)) hp

/-- **The conversion** brings all sections into the order of the host. -/
theorem region_convert {blob : Bytes} (h : Laid vals sectionOrder blob b.layout)
    (hp : p ∈ b.layout) :
    region (convertTableBlobToHostEndian o b blob) p.off (p.count * p.kind.width)
      = hostPacked o p.kind (vals p.name) := by
  have hnodup := nodup_of_laid h
  have hstart := converted_nil h o
  cases o with
  | little =>
    have hcontent := hstart.content p hp
    rwa [if_neg List.not_mem_nil] at hcontent
  | big =>
    have hplace : ∀ c ∈ converted, ∃ p ∈ b.layout, p.name = c.1 ∧ p.kind.width = c.2 ∧
        off b c.1 = p.off ∧ count b c.1 = p.count := by
      intro c hc
      obtain ⟨item, hitem, hname, hwidth⟩ := of_mem_converted c hc
      obtain ⟨p, hp, hpname, hpkind⟩ := exists_placed h hitem
      rw [← hname, ← hwidth, ← hpname, ← hpkind]
      exact ⟨p, hp, rfl, rfl, off_eq hnodup hp, count_eq hnodup hp⟩
    have hall := hstart.foldl h hnodup nodup_converted hplace fun _ _ => List.not_mem_nil
    have hcontent := hall.content p hp
    simp only [List.append_nil, List.mem_reverse] at hcontent
    apply hcontent.trans
    rcases mem_converted _ (mem_sectionOrder_of_laid h hp) with hmem | ⟨hmem, hkind⟩
    · exact if_pos (List.mem_map_of_mem (f := Prod.fst) hmem)
    · have hone : p.kind = .u8 := hkind
      rw [if_neg hmem, hone, hostPacked_u8]

/-- **A load** gives back the value that was packed. -/
theorem nativeLoad_of_region {n : ℕ} (h : region buffer a n = hostPacked o kind l)
    (hn : n = l.length * kind.width) (hl : ∀ v ∈ l, v < 2 ^ (8 * kind.width))
    (hv : l[k]? = some v) : nativeLoad o kind.width buffer (a + kind.width * k) = v := by
  have hk : k < l.length := (List.getElem?_eq_some_iff.mp hv).1
  have hle : kind.width * k + kind.width ≤ n := by
    rw [hn, ← Nat.mul_succ, Nat.mul_comm]
    exact Nat.mul_le_mul_right _ hk
  have hbytes : region buffer (a + kind.width * k) kind.width = hostBytes o kind v := by
    rw [← region_region hle, h]
    exact region_flatMap (length_hostBytes o kind) hv
  show pack 8 (o.arrange ((region buffer (a + kind.width * k) kind.width).map UInt8.toNat)) = v
  rw [hbytes, hostBytes, ByteOrder.map_arrange, ByteOrder.arrange_arrange]
  exact pack_bytesOf (hl v (List.mem_of_getElem? hv))

end TableBlob

end AdaIdna
