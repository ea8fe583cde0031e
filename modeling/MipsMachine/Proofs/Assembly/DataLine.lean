import MipsMachine.Proofs.Assembly.Emission
import MipsMachine.Proofs.Assembly.Footprint
import MipsMachine.Proofs.Assembly.TextLine
import MipsMachine.Proofs.Memory.Flat
import MipsMachine.Proofs.Statement.Forms

namespace MipsMachine

def roundUp (c n : Nat) : Nat := (c + (n - 1)) / n * n

theorem toNat_alignUp (cursor : Word) {n : Nat} (hn : 0 < n) (h : cursor.toNat + n ≤ 0x100000000) :
    (alignUp cursor n).toNat = roundUp cursor.toNat n := by
  have hmod := Nat.div_add_mod cursor.toNat n
  have hlt := Nat.mod_lt cursor.toNat hn
  have hdiv : (cursor.toNat + (n - 1)) / n = cursor.toNat / n + (cursor.toNat % n + (n - 1)) / n := by
    rw [← Nat.mul_add_div hn, ← Nat.add_assoc, hmod]
  rw [roundUp, hdiv, Nat.add_mul, Nat.mul_comm, alignUp]
  by_cases hz : cursor.toNat % n = 0
  · rw [if_pos hz, hz, Nat.zero_add, Nat.div_eq_of_lt (show n - 1 < n by omega)]
    omega
  · have hone : (cursor.toNat % n + (n - 1)) / n = 1 := Nat.div_eq_of_lt_le (by omega) (by omega)
    rw [if_neg hz, hone, Word.toNat_add_ofNat _ _ (by omega)]
    omega

def Width.encode (width : Width) (v : Int) : List Byte :=
  lowBytes (v % 2 ^ (8 * width.size)).toNat width.size

inductive Listing where
  | integers (width : Width) (values : List Int)
  | text (s : String) (terminated : Bool)
  | space (n : Int)
  | align (k : Int)

namespace Listing

def name : Listing → String
  | integers .byte _ => ".byte"
  | integers .half _ => ".half"
  | integers .word _ => ".word"
  | text _ false => ".ascii"
  | text _ true => ".asciiz"
  | space _ => ".space"
  | align _ => ".align"

def operands : Listing → List Operand
  | integers _ values => values.map .int
  | text s _ => [.str s]
  | space n | align n => [.int n]

def alignment : Listing → Nat
  | integers width _ => width.size
  | text .. | space _ => 1
  | align k => 2 ^ k.toNat

def encoding : Listing → List Byte
  | integers width values => values.flatMap width.encode
  | text s terminated => utf8 s ++ if terminated then [0] else []
  | space _ | align _ => []

def size : Listing → Nat
  | space n => n.toNat
  | l => l.encoding.length

end Listing

theorem Width.length_encode (width : Width) (v : Int) : (width.encode v).length = width.size :=
  length_lowBytes _ _

theorem Width.length_flatMap_encode (width : Width) (vs : List Int) :
    (vs.flatMap width.encode).length = width.size * vs.length := by
  induction vs with
  | nil => rfl
  | cons v vs ih =>
    rw [List.flatMap_cons, List.length_append, width.length_encode, ih, List.length_cons, Nat.mul_succ,
      Nat.add_comm]

section Encode

theorem Half.bytes_eq (h : Half) : h.bytes = lowBytes h.toNat 2 := by
  have hlow : (h.setWidth 32).extractLsb' 0 16 = h := by
    apply BitVec.eq_of_toNat_eq
    simpa using h.isLt
  have hb := Width.half.bytes_eq (h.setWidth 32)
  rwa [Width.bytes, hlow, BitVec.toNat_setWidth, Nat.mod_eq_of_lt (by omega)] at hb

theorem lowBytes_one (b : Byte) : lowBytes b.toNat 1 = [b] := by
  rw [lowBytes, Nat.pow_zero, Nat.div_one, BitVec.ofNat_toNat, BitVec.setWidth_eq]
  rfl

theorem flatMap_ofInt (width : Width) {f : BitVec (8 * width.size) → List Byte}
    (hf : ∀ b, f b = lowBytes b.toNat width.size) (vs : List Int) :
    (vs.map (BitVec.ofInt (8 * width.size))).flatMap f = vs.flatMap width.encode := by
  rw [List.flatMap_map]
  congr 1
  funext v
  rw [hf, BitVec.toNat_ofInt]
  rfl

end Encode

structure Directive.Lists (d : Directive) (l : Listing) : Prop where
  target : d.target = none
  alignment : d.alignment = l.alignment
  bytes : d.bytes = l.encoding
  size : d.size = l.size

theorem Word.toNat_ofInt {v : Int} (h : 0 ≤ v ∧ v ≤ wordHigh) : (BitVec.ofInt 32 v).toNat = v.toNat := by
  have hhigh : wordHigh = 0xFFFFFFFF := rfl
  rw [BitVec.toNat_ofInt, Int.emod_eq_of_lt h.1 (by omega)]

namespace Directive

variable {vs : List Int} {v : Int}

theorem lists_of_bytes {d : Directive} {l : Listing} (ht : d.target = none) (ha : d.alignment = l.alignment)
    (hb : d.bytes = l.encoding) (hd : d.size = d.bytes.length) (hl : l.size = l.encoding.length) : d.Lists l :=
  ⟨ht, ha, hb, by rw [hd, hl, hb]⟩

theorem lists_byte : (byte (vs.map (.ofInt 8))).Lists (.integers .byte vs) := by
  have hb := flatMap_ofInt .byte (f := fun b => [b]) (fun b => (lowBytes_one b).symm) vs
  exact lists_of_bytes rfl rfl ((List.flatMap_singleton' _).symm.trans hb) rfl rfl

theorem lists_half : (half (vs.map (.ofInt 16))).Lists (.integers .half vs) :=
  lists_of_bytes rfl rfl (flatMap_ofInt .half Half.bytes_eq vs) rfl rfl

theorem lists_word : (word (vs.map (.ofInt 32))).Lists (.integers .word vs) :=
  lists_of_bytes rfl rfl (flatMap_ofInt .word Width.word.bytes_eq vs) rfl rfl

theorem lists_space (h : 0 ≤ v ∧ v ≤ wordHigh) : (space (.ofInt 32 v)).Lists (.space v) :=
  ⟨rfl, rfl, rfl, Word.toNat_ofInt h⟩

theorem lists_align (h : 0 ≤ v ∧ v ≤ 3) : (align (.ofInt 32 v)).Lists (.align v) := by
  have hv := Word.toNat_ofInt (v := v) ⟨h.1, Int.le_trans h.2 (by decide)⟩
  refine ⟨rfl, ?_, rfl, rfl⟩
  rw [alignment, Listing.alignment, hv, Nat.mod_eq_of_lt (by omega), Nat.one_shiftLeft]

theorem lists_of_means {d : Directive} {l : Listing} (h : Means l.name l.operands d) : d.Lists l := by
  have hinj : Function.Injective (List.map Operand.int) := List.map_injective_iff.mpr fun _ _ => Operand.int.inj
  generalize hn : l.name = name at h
  generalize ho : l.operands = values at h
  -- of the names that the two may have, only equal ones are possible
  rcases l with ⟨_ | _ | _, vs⟩ | ⟨s, _ | _⟩ | n | k <;> dsimp only [Listing.name] at hn <;> cases h <;>
    first | exact absurd hn (by decide) | skip
  case byte => exact hinj ho ▸ lists_byte
  case half => exact hinj ho ▸ lists_half
  case word => exact hinj ho ▸ lists_word
  case ascii =>
    cases ho
    exact lists_of_bytes rfl rfl (List.append_nil _).symm rfl rfl
  case asciiz =>
    cases ho
    exact lists_of_bytes rfl rfl rfl rfl rfl
  case space h =>
    cases ho
    exact lists_space h
  case align h =>
    cases ho
    exact lists_align h

end Directive

namespace Memory

variable {m : Memory} {a : Word} {width : Width} {vs : List Int}

theorem toNat_load_of_holds {v : Nat} (h : m.Holds (a, lowBytes v width.size))
    (ha : a.toNat + width.size < 0x100000000) : (m.load a width).toNat = v % 256 ^ width.size := by
  have hb := h.bytes (by rwa [length_lowBytes])
  rw [length_lowBytes, bytes_eq_range] at hb
  rw [toNat_load, hb, bigEndian_lowBytes]

theorem holds_entry (h : m.Holds (a, vs.flatMap width.encode))
    (ha : a.toNat + width.size * vs.length < 0x100000000) {i : Nat} {v : Int} (hi : vs[i]? = some v) :
    m.Holds (a + BitVec.ofNat 32 (width.size * i), width.encode v) := by
  obtain ⟨before, after, rfl, rfl⟩ : ∃ before after, vs = before ++ v :: after ∧ before.length = i := by
    obtain ⟨hlt, rfl⟩ := List.getElem?_eq_some_iff.mp hi
    exact ⟨vs.take i, vs.drop (i + 1), by simp, List.length_take_of_le hlt.le⟩
  rw [List.length_append, Nat.mul_add, ← Nat.add_assoc, ← width.length_flatMap_encode before,
    ← width.length_flatMap_encode (v :: after)] at ha
  rw [List.flatMap_append] at h
  have hright := h.right ha
  rw [width.length_flatMap_encode before] at hright
  exact hright.left

theorem read_entry (h : m.Holds (a, vs.flatMap width.encode)) (ha : a.toNat % width.size = 0)
    (hstart : Segment.text.start.toNat ≤ a.toNat)
    (hstop : a.toNat + width.size * vs.length ≤ Segment.stack.stop.toNat) {i : Nat} {v : Int}
    (hi : vs[i]? = some v) :
    ∃ w, m.read (a + BitVec.ofNat 32 (width.size * i)) width = .ok w ∧
      (w.toNat : Int) = v % 2 ^ (8 * width.size) := by
  have hlast : Segment.stack.stop.toNat = 0x80000000 := rfl
  have hsize : 0 < width.size := by cases width <;> decide
  have hmul : width.size * i + width.size ≤ width.size * vs.length :=
    Nat.mul_le_mul_left width.size (List.getElem?_eq_some_iff.mp hi).1
  have hn : (a + BitVec.ofNat 32 (width.size * i)).toNat = a.toNat + width.size * i :=
    Word.toNat_add_ofNat _ _ (by omega)
  have hp : width.Permits (a + BitVec.ofNat 32 (width.size * i)) := by
    refine ⟨?_, ?_, ?_⟩
    · rw [hn, Nat.add_mul_mod_self_left, ha]
    · rw [BitVec.le_def, hn]
      omega
    · rw [BitVec.lt_def, hn]
      omega
  have hload := toNat_load_of_holds (holds_entry h (by omega) hi) (by omega)
  have hpow : (256 : Nat) ^ width.size = 2 ^ (8 * width.size) := by rw [Nat.pow_mul]
  refine ⟨_, read_eq_ok_iff.mpr ⟨hp, rfl⟩, ?_⟩
  have hnonneg : 0 ≤ v % 2 ^ (8 * width.size) := Int.emod_nonneg _ (Int.pow_pos (by decide)).ne'
  rw [hload, hpow, Int.natCast_emod, Int.toNat_of_nonneg hnonneg, Nat.cast_pow, Nat.cast_ofNat, Int.emod_emod]

end Memory

namespace Machine

def listingStart (m : Machine) (l : Listing) : Word := .ofNat 32 (roundUp m.dataCursor.toNat l.alignment)

structure AdmitsData (m : Machine) (s : Stmt) (l : Listing) : Prop where
  fresh : ∀ label, s.label = some label → m.symbols.lookup label.name = none
  resolves : ∀ f ∈ m.symbols.fixups, s.Defines f.label →
    ∃ ws, f.patch.resolve f.addr (m.listingStart l) = .ok ws
  room : roundUp m.dataCursor.toNat l.alignment + l.size ≤ Segment.data.stop.toNat

structure PutDown (m : Machine) (s : Stmt) (l : Listing) (m' : Machine) : Prop where
  label : ∀ label, s.label = some label → m'.symbols.lookup label.name = some (m.listingStart l)
  cursor : m'.dataCursor.toNat = roundUp m.dataCursor.toNat l.alignment + l.size
  bytes : m'.memory.bytes (m.listingStart l) l.encoding.length = l.encoding
  entry : ∀ width vs, l = .integers width vs → ∀ (i : Nat) v, vs[i]? = some v →
    ∃ w, m'.memory.read (m.listingStart l + BitVec.ofNat 32 (width.size * i)) width = .ok w ∧
      (w.toNat : Int) = v % 2 ^ (8 * width.size)
  others : ∀ b, Segment.data.start ≤ b → ¬ Store.Covers (m.listingStart l, l.encoding) b →
    m'.memory.getByte b = m.memory.getByte b

section Data

variable {m m' : Machine} {s : Stmt} {d : Directive} {l : Listing}

theorem aligned_eq_listingStart (h : m.Consistent) (hs : s.nucleus = some (.directive d)) (hl : d.Lists l) :
    m.cursors.aligned s = m.listingStart l ∧
      (m.listingStart l).toNat = roundUp m.dataCursor.toNat l.alignment := by
  have hstop : m.dataCursor.toNat ≤ Segment.data.stop.toNat := h.bounds.data_stop
  have hlast : Segment.data.stop.toNat = 0x10040000 := rfl
  obtain ⟨hpos, hle⟩ := d.alignment_bounds
  have ha := toNat_alignUp m.dataCursor hpos (by omega)
  rw [hl.alignment] at ha
  have heq : m.cursors.aligned s = m.listingStart l := by
    rw [Cursors.aligned_directive hs, hl.alignment, listingStart, ← ha, BitVec.ofNat_toNat, BitVec.setWidth_eq]
    rfl
  refine ⟨heq, ?_⟩
  rw [← ha, ← heq, Cursors.aligned_directive hs, hl.alignment]
  rfl

theorem here_eq_listingStart (h : m.Consistent) (hm : m.mode = .data) (hs : s.nucleus = some (.directive d))
    (hl : d.Lists l) : m.cursors.here s = m.listingStart l := by
  rw [Cursors.here, show m.cursors.mode = .data from hm]
  exact (aligned_eq_listingStart h hs hl).1

theorem AdmitsData.accepts (h : m.Consistent) (hm : m.mode = .data) (hs : s.nucleus = some (.directive d))
    (hl : d.Lists l) (ha : m.AdmitsData s l) :
    ∃ rewrites, m.Accepts s rewrites [.fixed (m.listingStart l, l.encoding)]
      [(m.listingStart l, l.encoding)] := by
  obtain ⟨haligned, hn⟩ := aligned_eq_listingStart h hs hl
  obtain ⟨rewrites, hr⟩ := (exists_rewrites_iff h.indexed).mpr ha.resolves
  refine ⟨rewrites, ?_, ha.fresh, ?_, ?_, rfl⟩
  · refine (Cursors.fits_directive_iff hs).mpr fun _ => ⟨hm, ?_⟩
    rw [haligned, hn, hl.size]
    exact ha.room
  · rw [here_eq_listingStart h hm hs hl, hr]
  · rw [Stmt.chunks_directive hs, haligned, hl.bytes]

theorem Accepts.admitsData {rewrites stores : List Store} {chunks : List Chunk} (h : m.Consistent)
    (hm : m.mode = .data) (hs : s.nucleus = some (.directive d)) (hl : d.Lists l)
    (ha : m.Accepts s rewrites chunks stores) : m.AdmitsData s l where
  fresh := ha.fresh
  resolves := (exists_rewrites_iff h.indexed).mp
    ⟨rewrites, here_eq_listingStart h hm hs hl ▸ ha.rewrites_eq⟩
  room := by
    obtain ⟨haligned, hn⟩ := aligned_eq_listingStart h hs hl
    have hfits := ((Cursors.fits_directive_iff hs).mp ha.fits hl.target).2
    rwa [haligned, hn, hl.size] at hfits

theorem putDown_after {rewrites : List Store} (h : m.Consistent) (hm : m.mode = .data)
    (hs : s.nucleus = some (.directive d)) (hl : d.Lists l)
    (ha : m.Accepts s rewrites [.fixed (m.listingStart l, l.encoding)] [(m.listingStart l, l.encoding)]) :
    m.PutDown s l (m.after s rewrites [.fixed (m.listingStart l, l.encoding)]
      [(m.listingStart l, l.encoding)]) := by
  obtain ⟨haligned, hn⟩ := aligned_eq_listingStart h hs hl
  have hroom := (ha.admitsData h hm hs hl).room
  have hstop : Segment.data.stop.toNat = 0x10040000 := rfl
  have hstack : Segment.stack.stop.toNat = 0x80000000 := rfl
  have hlen : l.encoding.length ≤ l.size := by
    rw [← hl.bytes, ← hl.size]
    exact d.length_bytes_le
  have hin : Store.InRange (m.listingStart l, l.encoding) := by
    change (m.listingStart l).toNat + l.encoding.length ≤ _
    omega
  have hholds := Memory.holds_setBytes (m.memory.setAll rewrites) hin
  constructor
  case label =>
    intro label hlabel
    rw [lookup_after, table, Stmt.bind_apply, if_pos ((Stmt.defines_iff hlabel _).mpr rfl),
      here_eq_listingStart h hm hs hl]
  case cursor =>
    have hnext : (m.cursors.next s).data = m.listingStart l + BitVec.ofNat 32 l.size := by
      rw [Cursors.next_directive hs, haligned, hl.size]
    change (m.cursors.next s).data.toNat = _
    rw [hnext, Word.toNat_add_ofNat _ _ (by omega), hn]
  case bytes => exact hholds.bytes (by omega)
  case entry =>
    rintro width vs rfl i v hi
    have hbytes : (vs.flatMap width.encode).length = width.size * vs.length := width.length_flatMap_encode vs
    have haddr := h.bounds.le_aligned s
    have hdata : Segment.data.start.toNat ≤ m.dataCursor.toNat := h.bounds.data_start
    have hlow : Segment.text.start.toNat ≤ Segment.data.start.toNat := by decide
    rw [haligned] at haddr
    refine Memory.read_entry hholds ?_ ?_ ?_ hi
    · rw [hn, roundUp]
      exact Nat.mul_mod_left _ _
    · exact hlow.trans (hdata.trans haddr)
    · rw [← hbytes]
      change (m.listingStart (.integers width vs)).toNat + (Listing.integers width vs).encoding.length ≤ _
      omega
  case others =>
    intro b hb hc
    have hrw := inRange_rewrites h ha
    calc ((m.memory.setAll rewrites).setBytes (m.listingStart l) l.encoding).getByte b
      _ = (m.memory.setAll rewrites).getByte b := by
        rw [Memory.getByte_setStore _ (m.listingStart l, l.encoding) hin, (Store.byteAt_eq_none_iff _ b).mpr hc]
        rfl
      _ = m.memory.getByte b := by
        apply Memory.getByte_setAll_of_not_covers _ _ _ fun t ht => (hrw t ht).1
        rintro t ht ⟨-, hlt⟩
        -- the references that waited stand in the text segment
        obtain ⟨-, f, hf, -, -, hend⟩ := hrw t ht
        have htext := (h.placed f hf).ref.2.2
        have hbelow := h.bounds.text_stop
        have hgap : Segment.text.stop.toNat = Segment.data.start.toNat := rfl
        have hle : Segment.data.start.toNat ≤ b.toNat := hb
        omega

theorem exists_assemble_data (h : m.Consistent) (hm : m.mode = .data) (hs : s.nucleus = some (.directive d))
    (hl : d.Lists l) (ha : m.AdmitsData s l) : ∃ m', m.assemble s = (.ok [], m') ∧ m.PutDown s l m' := by
  obtain ⟨rewrites, hacc⟩ := ha.accepts h hm hs hl
  obtain ⟨words, hw⟩ := exists_assemble h.bounds.text_stop hacc
  obtain ⟨_, _, _, -, -, hemits⟩ := assemble_ok h.bounds.text_stop hw
  obtain rfl := hemits.eq_nil hs
  exact ⟨_, hw, putDown_after h hm hs hl hacc⟩

/--
A parsed data line is put down whole, at the next address that is aligned for it, if its label is free and
reaches what waits for it and the segment has room; else it is refused and changes nothing.
-/
theorem assemble_data_iff {operands : List (Located Operand)} {place span : Span} (h : m.Reachable)
    (hm : m.mode = .data) (hs : s.nucleus = some (.directive d))
    (hd : Directive.ofOperands ⟨l.name, place⟩ operands span = .ok d)
    (ho : operands.map (Located.value ·) = l.operands) :
    ((∃ m', m.assemble s = (.ok [], m') ∧ m.PutDown s l m') ↔ m.AdmitsData s l) ∧
      ((∃ e, m.assemble s = (.error e, m)) ↔ ¬ m.AdmitsData s l) := by
  have hc := h.consistent
  have hl : d.Lists l := Directive.lists_of_means (ho ▸ Directive.means_of_ofOperands hd)
  have hacc {words : List Word} {m' : Machine} (ha : m.assemble s = (.ok words, m')) : m.AdmitsData s l := by
    obtain ⟨_, _, _, hacc, -, -⟩ := assemble_ok hc.bounds.text_stop ha
    exact hacc.admitsData hc hm hs hl
  have hok := exists_assemble_data hc hm hs hl
  refine ⟨⟨fun ⟨m', ha, _⟩ => hacc ha, hok⟩, exists_error_iff.trans (not_congr ?_)⟩
  refine ⟨fun ⟨words, m', ha⟩ => hacc ha, fun ha => ?_⟩
  obtain ⟨m', hm', -⟩ := hok ha
  exact ⟨[], m', hm'⟩

end Data

theorem assemble_data_iff_words :
    let opened := ((new .initial).assemble ⟨none, some (.directive .data), ⟨0, 5⟩⟩).2
    let m := (opened.assemble ⟨none, some (.directive (.byte [1])), ⟨0, 7⟩⟩).2
    let l : Listing := .integers .word [-2, 0xFFFFFFFE]
    let s : Stmt := ⟨some ⟨"x", 0⟩, some (.directive (.word [0xFFFFFFFE, 0xFFFFFFFE])), ⟨3, 24⟩⟩
    m.Reachable ∧ m.mode = .data ∧ m.dataCursor = 0x10000001 ∧ m.listingStart l = 0x10000004 ∧
      ∃ m', m.assemble s = (.ok [], m') ∧ m.PutDown s l m' := by
  intro opened m l s
  have hr : m.Reachable := ((Reachable.new .initial).assemble _).assemble _
  have hlisted : m = opened.listed (.byte [1]) :=
    congrArg Prod.snd ((assemble_aligned rfl rfl (Nat.mod_one _) _).trans (if_pos (by decide +kernel)))
  have hm : m.mode = .data := congrArg mode hlisted
  have hcursor : m.dataCursor = 0x10000001 := congrArg dataCursor hlisted
  have hsymbols : m.symbols = (new .initial).symbols := (congrArg symbols hlisted).trans rfl
  have ha : m.AdmitsData s l := by
    refine ⟨fun label _ => ?_, fun f hf => ?_, ?_⟩
    · rw [hsymbols]
      exact Symbols.lookup_empty label.name
    · rw [hsymbols, show (new .initial).symbols.fixups = [] from Symbols.fixups_empty] at hf
      exact (List.not_mem_nil hf).elim
    · rw [hcursor]
      decide
  have hd : Directive.ofOperands ⟨".word", ⟨3, 8⟩⟩ [⟨.int (-2), ⟨9, 11⟩⟩, ⟨.int 0xFFFFFFFE, ⟨13, 24⟩⟩] ⟨3, 24⟩ =
      .ok (.word [0xFFFFFFFE, 0xFFFFFFFE]) := rfl
  refine ⟨hr, hm, hcursor, ?_, (assemble_data_iff (l := l) hr hm rfl hd rfl).1.mpr ha⟩
  rw [listingStart, hcursor]
  decide

end Machine

end MipsMachine
