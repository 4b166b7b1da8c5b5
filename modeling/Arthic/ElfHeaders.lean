import Arthic.Processes

namespace Arthic.ElfHeaders
open ByteMemory Loader Processes Unsigned
variable {file : Memory} {size : Nat}

def elfProgramHeaderSize : Nat := 32

-- Where the loop finds header i, counted from the start of the buffer. The address is a
-- pointer sum and wraps with it.
def headerStart (file : Memory) (i : Nat) : Nat := elfPhoff file+i*elfPhentsize file

def HeadersInside (file : Memory) (size : Nat) : Prop :=
  ∀ i < elfPhnum file,∀ k < elfProgramHeaderSize,wrap 32 (headerStart file i+k) < size

instance (file : Memory) (size : Nat) : Decidable (HeadersInside file size) :=
  inferInstanceAs (Decidable (∀ i < _,∀ k < _,_ < _))

-- The table ends where its size says, and the last header in it is not cut short.
def TableInside (file : Memory) (size : Nat) : Prop :=
  elfPhnum file = 0 ∨ elfPhoff file+elfPhnum file*elfPhentsize file < 2^32 ∧
    (elfProgramHeaderSize ≤ elfPhentsize file ∨ headerStart file (elfPhnum file-1)+elfProgramHeaderSize ≤ size)

theorem fields_small (file : Memory) : elfPhoff file < 2^32 ∧ elfPhentsize file < 2^16 ∧ elfPhnum file < 2^16 :=
  ⟨load_lt file 28 4,load_lt file 42 2,load_lt file 44 2⟩

theorem headers_inside (short : size ≤ maxProgram) (passed : Executable file size) :
    HeadersInside file size ↔ TableInside file size := by
  obtain ⟨offset,stride,count⟩ := fields_small file
  have checked : wrap 32 (elfPhoff file+elfPhnum file*elfPhentsize file) ≤ size := by
    simpa [headersFit] using passed.2.2.2
  unfold HeadersInside TableInside headerStart
  generalize elfPhoff file = phoff at *
  generalize elfPhentsize file = phentsize at *
  generalize elfPhnum file = phnum at *
  have product : phnum*phentsize ≤ (2^16-1)*(2^16-1) := Nat.mul_le_mul (by omega) (by omega)
  constructor
  · intro inside
    rcases Nat.eq_zero_or_pos phnum with none | some
    · exact .inl none
    -- the first header already keeps every sum small
    have first : phoff < size := by
      have start := inside 0 some 0 (by decide)
      rwa [Nat.zero_mul,Nat.add_zero,wrap_small offset] at start
    have last : (phnum-1)*phentsize ≤ phnum*phentsize := Nat.mul_le_mul_right _ (Nat.sub_le _ _)
    simp only [maxProgram,elfProgramHeaderSize] at *
    have end_ := inside (phnum-1) (by omega) 31 (by decide)
    rw [wrap_small (by omega)] at end_
    exact .inr ⟨by omega,.inr (by omega)⟩
  · rintro (none | ⟨whole,wide | long⟩) i below k inside
    · omega
    all_goals rw [wrap_small whole] at checked
    · have next : (i+1)*phentsize ≤ phnum*phentsize := Nat.mul_le_mul_right _ (by omega)
      rw [Nat.succ_mul] at next
      simp only [maxProgram,elfProgramHeaderSize] at *
      rw [wrap_small (by omega)]
      omega
    · have earlier : i*phentsize ≤ (phnum-1)*phentsize := Nat.mul_le_mul_right _ (by omega)
      simp only [maxProgram,elfProgramHeaderSize] at *
      rw [wrap_small (by omega)]
      omega

-- What the loop sees is then in the file alone, whatever follows it in the buffer.
theorem header_agrees {other : Memory} (inside : HeadersInside file size) (short : size ≤ maxProgram) (below : i < elfPhnum file)
    (same : ∀ k < size,other k = file k) (start : headerStart file i < 2^32) :
    programHeader other (headerStart file i) = programHeader file (headerStart file i) := by
  have bytes : ∀ k < elfProgramHeaderSize,headerStart file i+k < size := by
    intro k low
    induction k with
    | zero =>
      have here := inside i below 0 (by decide)
      rwa [Nat.add_zero,wrap_small start] at here
    | succ k ih =>
      have before := ih (by omega)
      have here := inside i below (k+1) low
      simp only [maxProgram] at short
      rwa [wrap_small (by omega)] at here
  have fields : ∀ x,x+4 ≤ elfProgramHeaderSize → load other (headerStart file i+x) 4 = load file (headerStart file i+x) 4 := by
    intro x fits
    apply load_congr
    intro k low
    rw [Nat.add_assoc]
    exact same _ (bytes (x+k) (by omega))
  have first := fields 0 (by decide)
  rw [Nat.add_zero] at first
  unfold programHeader
  rw [first,fields 4 (by decide),fields 8 (by decide),fields 16 (by decide),fields 20 (by decide),fields 24 (by decide)]

-- A file that ends with its header, and the one after it names a table of one entry of no
-- bytes behind that.
def bareElf : Memory :=
  [(0,4,0x464C457F),(4,1,1),(5,1,1),(16,2,2),(18,2,3),(28,4,52),(44,2,1)].foldl
    (fun m (addr,width,value) => store m addr width value) fun _ => 0#8

theorem headers_inside_small : HeadersInside (store bareElf 42 2 32) 84 := by
  have passed : Executable (store bareElf 42 2 32) 84 := by
    unfold Executable
    decide
  exact (headers_inside (by decide) passed).mpr (.inr ⟨by decide,.inl (by decide)⟩)

theorem header_read_behind_file : Executable bareElf 52 ∧ ¬ HeadersInside bareElf 52 := by
  refine ⟨by unfold Executable; decide,fun inside => ?_⟩
  have behind := inside 0 (by decide) 0 (by decide)
  exact absurd behind (by decide)

end Arthic.ElfHeaders
