import RFPowerDetector.Library.Machine
import RFPowerDetector.Library.Rounding
import RFPowerDetector.Library.Numeral
import RFPowerDetector.Library.Split
import RFPowerDetector.Library.Memory
import RFPowerDetector.Library.Reader
import RFPowerDetector.Library.Ring
import RFPowerDetector.Library.Integer
import RFPowerDetector.Firmware.Defs
import RFPowerDetector.Firmware.Sample
import RFPowerDetector.Firmware.Convert
import RFPowerDetector.Firmware.Measure
import RFPowerDetector.Firmware.Loop
import RFPowerDetector.Firmware.Control
import RFPowerDetector.Firmware.Window
import RFPowerDetector.Firmware.Script
import RFPowerDetector.Firmware.Completion
import RFPowerDetector.Firmware.Stored
import RFPowerDetector.Firmware.ChipSelect
import RFPowerDetector.Firmware.Report
import RFPowerDetector.Firmware.Inclusion
import RFPowerDetector.Firmware.EmptyWindow
import RFPowerDetector.Firmware.Timestamps
import RFPowerDetector.Firmware.Serial
import RFPowerDetector.Firmware.Average
import RFPowerDetector.Firmware.Mean
import RFPowerDetector.Firmware.Scale
import RFPowerDetector.Firmware.Accuracy
import RFPowerDetector.Firmware.Display
import RFPowerDetector.Firmware.Format
import RFPowerDetector.Firmware.FillArray
import RFPowerDetector.Host.Plotter
import RFPowerDetector.Host.Lines
import RFPowerDetector.Host.CsvStream
import RFPowerDetector.Host.MixedStream
import RFPowerDetector.Host.Matrix
import RFPowerDetector.Host.Transcript
import RFPowerDetector.Host.ReadBack
import RFPowerDetector.Host.Reports
import RFPowerDetector.Buffer.Circular
import RFPowerDetector.Buffer.Queue
import RFPowerDetector.Buffer.Bulk
import RFPowerDetector.Buffer.Statistics
import RFPowerDetector.Buffer.Runs
import RFPowerDetector.Buffer.Bounds
import RFPowerDetector.Buffer.Masks
import RFPowerDetector.Buffer.ArrayMode
import RFPowerDetector.Buffer.Rows
import RFPowerDetector.Buffer.Removal
import RFPowerDetector.Buffer.Lengths
import RFPowerDetector.Buffer.Records
import RFPowerDetector.I2C.Slave
import RFPowerDetector.I2C.Device
import RFPowerDetector.I2C.Represents
import RFPowerDetector.I2C.Reading
import RFPowerDetector.I2C.Writing
import RFPowerDetector.I2C.Refinement
