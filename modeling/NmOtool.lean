import NmOtool.Base.Checked
import NmOtool.Base.ByteOrder
import NmOtool.Base.Buffer
import NmOtool.Base.Relocate
import NmOtool.Base.Fill
import NmOtool.Base.Exchange
import NmOtool.Base.Linked
import NmOtool.Base.Heap
import NmOtool.Base.Below
import NmOtool.Base.Footprint
import NmOtool.Base.Steps
import NmOtool.Base.Segments
import NmOtool.MachO.Layout
import NmOtool.MachO.View
import NmOtool.MachO.Encode
import NmOtool.MachO.TextFile
import NmOtool.Common.Swap
import NmOtool.Common.Image
import NmOtool.Common.Libft
import NmOtool.Common.SectionName
import NmOtool.Common.Printf
import NmOtool.Common.Dump
import NmOtool.Common.Swapped
import NmOtool.Common.Relocate
import NmOtool.Nm.Letter
import NmOtool.Nm.Symtab
import NmOtool.Nm.Fat
import NmOtool.Nm.Sort
import NmOtool.Nm.Order
import NmOtool.Nm.SortNodes
import NmOtool.Nm.Print
import NmOtool.Nm.Main
import NmOtool.Nm.Host
import NmOtool.Nm.Local
import NmOtool.Nm.Dispatch
import NmOtool.Nm.Select
import NmOtool.Nm.Listing
import NmOtool.Nm.Widths
import NmOtool.Nm.Filter
import NmOtool.Nm.Render
import NmOtool.Nm.Requires
import NmOtool.Nm.InBounds
import NmOtool.Nm.Area
import NmOtool.Nm.Atomic
import NmOtool.Nm.Strings
import NmOtool.Nm.Numbering
import NmOtool.Nm.Classify
import NmOtool.Nm.Quiet
import NmOtool.Nm.Repeat
import NmOtool.Nm.Failed
import NmOtool.Nm.Mixed
import NmOtool.Nm.Swapped
import NmOtool.Nm.Relocate
import NmOtool.Nm.OnHeap
import NmOtool.Nm.Lost
import NmOtool.Otool.Dump
import NmOtool.Otool.Text
import NmOtool.Otool.Fat
import NmOtool.Otool.Host
import NmOtool.Otool.Swapped
import NmOtool.Otool.Requires
import NmOtool.Otool.Footprint
import NmOtool.Otool.Slices
import NmOtool.Otool.Relocate
import NmOtool.Otool.Terminate
import NmOtool.Common.Process
import NmOtool.Common.Report
import NmOtool.Nm.Flags
import NmOtool.Nm.Args
import NmOtool.Otool.Args
import NmOtool.Otool.Report
import NmOtool.Otool.Status
import NmOtool.Printf.Numeral
import NmOtool.Printf.ConvertBase
import NmOtool.Printf.Parse
import NmOtool.Printf.Text
import NmOtool.Printf.Signed
import NmOtool.Printf.Unsigned
import NmOtool.Printf.Convert
import NmOtool.Printf.Run
import NmOtool.Printf.Length
import NmOtool.Printf.Directive
import NmOtool.Printf.Decimal
import NmOtool.Printf.Calls
import NmOtool.Printf.UnsignedText
import NmOtool.Printf.Wide
import NmOtool.Printf.Itoa
import NmOtool.Printf.Compose
import NmOtool.Printf.Conforms
import NmOtool.Libft.GetNextLine
import NmOtool.Libft.Search
import NmOtool.Libft.Split
import NmOtool.Libft.Trim
import NmOtool.Libft.Memory
import NmOtool.Libft.Putnbr
import NmOtool.Base.Arrange
import NmOtool.Base.Lines
import NmOtool.Nm.Arranged
import NmOtool.Nm.Readback
import NmOtool.Nm.Draft
import NmOtool.Otool.Readback
import NmOtool.Common.Extract
import NmOtool.Common.Truncated
